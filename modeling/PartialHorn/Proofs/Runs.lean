import PartialHorn.Machine

namespace PartialHorn

namespace Action

section

variable {ε φ α β : Type} {s t u : Structure}

/-- An action answers on a structure and leaves another one. -/
def Returns (action : Action Structure ε α) (s : Structure) (a : α) (t : Structure) : Prop :=
  (action s).answer = .ok a ∧ (action s).after = t

/-- The answer or error of an action together with the structure that it leaves. -/
def result (action : Action Structure ε α) (s : Structure) : Except ε α × Structure :=
  ((action s).answer, (action s).after)

/-- An action fails on a structure and leaves it as it is. -/
def Refuses (action : Action Structure ε α) (s : Structure) : Prop :=
  (∃ e, (action s).answer = .error e) ∧ (action s).after = s

/-- Whether it answers or fails, an action leads from a structure to a related one. -/
def Obeys (R : Structure → Structure → Prop) (action : Action Structure ε α) : Prop :=
  ∀ s, R s (action s).after

theorem give_returns (a : α) (s : Structure) : (give a : Action Structure ε α).Returns s a s :=
  ⟨rfl, rfl⟩

theorem current_returns (s : Structure) : (current : Action Structure ε Structure).Returns s s s :=
  ⟨rfl, rfl⟩

theorem update_returns (change : Structure → Structure) (s : Structure) :
    (update change : Action Structure ε Unit).Returns s () (change s) :=
  ⟨rfl, rfl⟩

theorem report_returns (event : Event) (s : Structure) :
    (report event : Action Structure ε Unit).Returns s () s :=
  ⟨rfl, rfl⟩

theorem ask_returns {question : Structure → Except ε α} {a : α} (h : question s = .ok a) :
    (ask question).Returns s a s :=
  ⟨h, rfl⟩

theorem join_returns {x y : Nat} {merged : Bool} {equality : Equality}
    (h : s.equality.merge x y = .ok (merged, equality)) :
    (join x y).Returns s merged { s with equality } := by
  simp only [Returns, join, h, and_self]

theorem ofExcept_returns {result : Except ε α} {a : α} (h : result = .ok a) (s : Structure) :
    (ofExcept result).Returns s a s :=
  ⟨h, rfl⟩

theorem ofOption_returns {value : Option α} {a : α} (e : ε) (h : value = some a) (s : Structure) :
    (ofOption e value).Returns s a s := by
  subst h
  exact give_returns a s

theorem returns_give {a b : α} : (give a : Action Structure ε α).Returns s b t ↔ a = b ∧ s = t := by
  simp [Returns, give]

theorem returns_current {b : Structure} :
    (current : Action Structure ε Structure).Returns s b t ↔ s = b ∧ s = t := by
  show (Except.ok s : Except ε Structure) = .ok b ∧ s = t ↔ s = b ∧ s = t
  simp

theorem returns_report {event : Event} {b : Unit} :
    (report event : Action Structure ε Unit).Returns s b t ↔ s = t := by
  simp [Returns, report]

theorem returns_ofExcept {result : Except ε α} {a : α} :
    (ofExcept result).Returns s a t ↔ result = .ok a ∧ s = t := by
  simp [Returns, ofExcept]

theorem returns_mapError {rename : ε → φ} {action : Action Structure ε α} {a : α} :
    (mapError rename action).Returns s a t ↔ action.Returns s a t := by
  have hanswer : ((action s).answer.mapError rename = .ok a) ↔ (action s).answer = .ok a := by
    cases (action s).answer with
    | error e => exact ⟨fun h => (nomatch h), fun h => (nomatch h)⟩
    | ok b => exact ⟨fun h => congrArg _ (Except.ok.inj h), fun h => congrArg _ (Except.ok.inj h)⟩
  exact and_congr_left' hanswer

/-- A sequence answers when both actions do, the second one on what the first one left. -/
theorem returns_andThen {first : Action Structure ε α} {next : α → Action Structure ε β} {b : β} :
    (andThen first next).Returns s b u ↔
      ∃ a t, first.Returns s a t ∧ (next a).Returns t b u := by
  constructor
  · intro h
    cases hfirst : (first s).answer with
    | error e =>
      rw [Returns, andThen_of_error hfirst] at h
      exact nomatch h.1
    | ok a =>
      rw [Returns, andThen_of_ok hfirst] at h
      exact ⟨a, _, ⟨hfirst, rfl⟩, h⟩
  · rintro ⟨a, t, ⟨hfirst, rfl⟩, hnext⟩
    rw [Returns, andThen_of_ok hfirst]
    exact hnext

theorem Returns.andThen {first : Action Structure ε α} {next : α → Action Structure ε β} {a : α} {b : β}
    (h : first.Returns s a t) (h' : (next a).Returns t b u) :
    (Action.andThen first next).Returns s b u :=
  returns_andThen.mpr ⟨a, t, h, h'⟩

theorem returns_iff_result {action : Action Structure ε α} {a : α} :
    action.Returns s a t ↔ action.result s = (.ok a, t) :=
  ⟨fun h => Prod.ext h.1 h.2, fun h => ⟨congrArg Prod.fst h, congrArg Prod.snd h⟩⟩

/-- A sequence whose first action answers ends as its second one does. -/
theorem Returns.result_andThen {first : Action Structure ε α} {next : α → Action Structure ε β} {a : α}
    (h : first.Returns s a t) : (Action.andThen first next).result s = (next a).result t := by
  rw [result, andThen_of_ok h.1, h.2]
  rfl

theorem Returns.of_result_eq {action action' : Action Structure ε α} {a : α} (h : action.Returns s a t)
    (he : action'.result u = action.result s) : action'.Returns u a t :=
  returns_iff_result.mpr (he.trans (returns_iff_result.mp h))

theorem Returns.result_andThen_eq {first first' : Action Structure ε α} {a : α}
    (h : first.Returns s a t) (h' : first'.Returns u a t) (next : α → Action Structure ε β) :
    (Action.andThen first next).result s = (Action.andThen first' next).result u :=
  h.result_andThen.trans h'.result_andThen.symm

/-- A sequence whose first action fails ends there. -/
theorem result_andThen_of_error {first : Action Structure ε α} {next : α → Action Structure ε β} {e : ε}
    (h : first.result s = (.error e, t)) : (Action.andThen first next).result s = (.error e, t) := by
  obtain ⟨hanswer, hafter⟩ := Prod.mk.inj h
  rw [result, andThen_of_error hanswer, hafter]

/-- An action that fails on every breach of a contract, without a change, and answers if there is
none fails for the breaches only. -/
theorem result_eq_error_iff {action : Action Structure ε α} {breach : ε → Prop} {e : ε}
    (fails : ∀ e, breach e → action.result s = (.error e, s))
    (answers : (∀ e, ¬breach e) → ∃ a t, action.Returns s a t) :
    action.result s = (.error e, t) ↔ breach e ∧ t = s := by
  refine ⟨fun h => ?_, fun ⟨hbreach, ht⟩ => ht ▸ fails e hbreach⟩
  by_cases breached : ∃ e, breach e
  · obtain ⟨e', hbreach⟩ := breached
    obtain ⟨he, ht⟩ := Prod.mk.inj ((fails e' hbreach).symm.trans h)
    exact ⟨Except.error.inj he ▸ hbreach, ht.symm⟩
  · obtain ⟨a, u, hreturns⟩ := answers (not_exists.mp breached)
    have hanswer := congrArg Prod.fst ((returns_iff_result.mp hreturns).symm.trans h)
    exact nomatch hanswer

/-- After a sequence the structure is what the first action left, if it failed, or what the second
one made of that. -/
theorem andThen_after (first : Action Structure ε α) (next : α → Action Structure ε β) (s : Structure) :
    (Action.andThen first next s).after = (first s).after ∨
      ∃ a t, first.Returns s a t ∧ (Action.andThen first next s).after = (next a t).after := by
  cases hfirst : (first s).answer with
  | error e =>
    rw [andThen_of_error hfirst]
    exact Or.inl rfl
  | ok a =>
    rw [andThen_of_ok hfirst]
    exact Or.inr ⟨a, _, ⟨hfirst, rfl⟩, rfl⟩

theorem Returns.unique {action : Action Structure ε α} {a b : α} (h : action.Returns s a t)
    (h' : action.Returns s b u) : a = b ∧ t = u :=
  ⟨Except.ok.inj (h.1.symm.trans h'.1), h.2.symm.trans h'.2⟩

theorem Refuses.not_returns {action : Action Structure ε α} (h : action.Refuses s) {a : α} :
    ¬action.Returns s a t := by
  rintro ⟨ha, _⟩
  obtain ⟨⟨e, he⟩, _⟩ := h
  exact nomatch he.symm.trans ha

theorem refuses_fail (e : ε) (s : Structure) : (fail e : Action Structure ε α).Refuses s :=
  ⟨⟨e, rfl⟩, rfl⟩

theorem refuses_ofExcept {result : Except ε α} {e : ε} (h : result = .error e) :
    (ofExcept result).Refuses s :=
  ⟨⟨e, h⟩, rfl⟩

theorem refuses_ofOption {value : Option α} (e : ε) (h : value = none) (s : Structure) :
    (ofOption e value).Refuses s := by
  subst h
  exact refuses_fail e s

theorem Refuses.andThen {first : Action Structure ε α} (h : first.Refuses s)
    (next : α → Action Structure ε β) : (Action.andThen first next).Refuses s := by
  obtain ⟨⟨e, he⟩, hs⟩ := h
  rw [Refuses, andThen_of_error he]
  exact ⟨⟨e, rfl⟩, hs⟩

theorem Returns.refuses {first : Action Structure ε α} {next : α → Action Structure ε β} {a : α}
    (h : first.Returns s a s) (h' : (next a).Refuses s) : (Action.andThen first next).Refuses s := by
  rw [Refuses, andThen_of_ok h.1, h.2]
  exact h'

end

section Obeys

variable {ε φ α β : Type} {R : Structure → Structure → Prop} (refl : ∀ s, R s s)
  (trans : ∀ s t u, R s t → R t u → R s u)

theorem Obeys.mapError {action : Action Structure ε α} (h : action.Obeys R) (rename : ε → φ) :
    (Action.mapError rename action).Obeys R :=
  h

section

include refl

theorem obeys_give (a : α) : (give a : Action Structure ε α).Obeys R :=
  refl

theorem obeys_current : (current : Action Structure ε Structure).Obeys R :=
  refl

/-- A question leaves the structure as it is. -/
theorem obeys_ask (question : Structure → Except ε α) : (ask question).Obeys R :=
  refl

theorem obeys_fail (e : ε) : (fail e : Action Structure ε α).Obeys R :=
  refl

theorem obeys_ofExcept (result : Except ε α) : (ofExcept result).Obeys R :=
  refl

theorem obeys_report (event : Event) : (report event : Action Structure ε Unit).Obeys R :=
  refl

theorem obeys_ofOption (e : ε) (value : Option α) : (ofOption e value).Obeys R := by
  cases value with
  | none => exact refl
  | some a => exact refl

theorem obeys_refuse (error : Option ε) : (refuse error).Obeys R := by
  cases error with
  | none => exact refl
  | some e => exact refl

end

section

include trans

theorem Obeys.andThen {first : Action Structure ε α} {next : α → Action Structure ε β} (h : first.Obeys R)
    (h' : ∀ a, (next a).Obeys R) : (Action.andThen first next).Obeys R := by
  intro s
  cases hfirst : (first s).answer with
  | error e =>
    rw [andThen_of_error hfirst]
    exact h s
  | ok a =>
    rw [andThen_of_ok hfirst]
    exact trans _ _ _ (h s) (h' a _)

include refl

theorem obeys_each {action : α → Action Structure ε Unit} {xs : List α}
    (h : ∀ x ∈ xs, (action x).Obeys R) : (each action xs).Obeys R := by
  induction xs with
  | nil => exact refl
  | cons x xs ih =>
    refine Obeys.andThen trans (h x (by simp)) fun _ => ih ?_
    exact fun y hy => h y (List.mem_cons_of_mem x hy)

end

end Obeys

end Action

end PartialHorn
