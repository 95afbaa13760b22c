import PartialHorn.Proofs.Doubles
import PartialHorn.Proofs.Safety

namespace PartialHorn

namespace Structure

variable {E : Type} [Partition E]

/-- What the counters of a structure tell of its changes: merges add up, and the tables of a clean
structure have moved by the rows they gained for as long as no classes are merged. -/
structure Tallies (s t : Structure E) : Prop where
  merges : Partition.merges s.equality ≤ Partition.merges t.equality
  steady : s.dirty = false → Partition.merges t.equality = Partition.merges s.equality →
    t.dirty = false ∧ Gains s.operations t.operations s.predicates t.predicates

theorem Tallies.refl (s : Structure E) : s.Tallies s :=
  ⟨Nat.le_refl _, fun clean _ => ⟨clean, .refl _ _⟩⟩

theorem Tallies.trans {s t u : Structure E} (h : s.Tallies t) (h' : t.Tallies u) : s.Tallies u := by
  have hle := h.merges
  have hle' := h'.merges
  refine ⟨by omega, fun clean he => ?_⟩
  obtain ⟨clean', hgains⟩ := h.steady clean (by omega)
  obtain ⟨clean'', hgains'⟩ := h'.steady clean' (by omega)
  exact ⟨clean'', hgains.trans hgains'⟩

theorem Grows.tallies {s t : Structure} (h : s.Grows t) : s.Tallies t :=
  ⟨h.merges, h.steady⟩

/-- Two runs have come from `s` and `t` to `u` and `v`: the first run has kept its structure valid and
has forgotten nothing, and the other structure is a double of it. -/
structure Leads (R : E → Equality → Prop) (s : Structure) (t : Structure E) (u : Structure)
    (v : Structure E) : Prop where
  valid : u.Valid
  grows : s.Grows u
  double : v.Doubles R u
  tallies : t.Tallies v

variable {R : E → Equality → Prop} {s u u' : Structure} {t v v' : Structure E}

theorem Leads.refl (valid : s.Valid) (double : t.Doubles R s) : Leads R s t s t :=
  ⟨valid, .refl valid, double, .refl t⟩

theorem Leads.trans (h : Leads R s t u v) (h' : Leads R u v u' v') : Leads R s t u' v' :=
  ⟨h'.valid, h.grows.trans h'.grows, h'.double, h.tallies.trans h'.tallies⟩

end Structure

open Structure

section Tracking

variable {E : Type} {dealer : Dealer} {ε φ α β : Type}

/-- Two outcomes that nobody can tell apart: the same reports, the same error or related answers, and
a double at the end. -/
structure Outcome.Concurs (R : E → Equality → Prop) (Q : α → α → Structure → Structure E → Prop)
    (o : Outcome Structure ε α) (o' : Outcome (Hand E dealer) ε α) : Prop where
  events : o'.events = o.events
  answer : (∃ e, o.answer = .error e ∧ o'.answer = .error e) ∨
    ∃ a a', o.answer = .ok a ∧ o'.answer = .ok a' ∧ Q a a' o.after o'.after.held
  double : o'.after.held.Doubles R o.after

namespace Hand

section

variable [Partition E]

/-- However many iterations have been before, a run in the hand of a dealer from `t` ends as an action
does on `s`, up to a relation of the answers in the two structures that are left. -/
def Tracks (R : E → Equality → Prop) (dealt : Action (Hand E dealer) ε α)
    (action : Action Structure ε α) (s : Structure) (t : Structure E)
    (Q : α → α → Structure → Structure E → Prop) : Prop :=
  ∀ n, (action s).Concurs R Q (dealt ⟨t, n⟩) ∧ t.Tallies (dealt ⟨t, n⟩).after.held

/-- A run in the hand of a dealer that answers like an action on any double. -/
structure Mirrors (R : E → Equality → Prop) (dealt : Action (Hand E dealer) ε α)
    (action : Action Structure ε α) : Prop where
  keeps : action.Obeys Action.Keeps
  tracks : ∀ s t, s.Valid → t.Doubles R s → Tracks R dealt action s t fun a a' _ _ => a' = a

variable {R : E → Equality → Prop} {Q : α → α → Structure → Structure E → Prop}
  {Q' : β → β → Structure → Structure E → Prop} {s : Structure} {t : Structure E}

theorem Tracks.mono {dealt : Action (Hand E dealer) ε α} {action : Action Structure ε α}
    {P : α → α → Structure → Structure E → Prop} (h : Tracks R dealt action s t Q)
    (hsub : ∀ a a' u v, Q a a' u v → P a a' u v) : Tracks R dealt action s t P := by
  intro n
  obtain ⟨⟨hevents, hanswer, hdouble⟩, htallies⟩ := h n
  refine ⟨⟨hevents, hanswer.imp_right ?_, hdouble⟩, htallies⟩
  rintro ⟨a, a', ha, ha', hq⟩
  exact ⟨a, a', ha, ha', hsub _ _ _ _ hq⟩

/-- Runs that track each other up to some point track each other to the end if their rests do,
wherever the first parts have led to. -/
theorem Tracks.andThen {first' : Action (Hand E dealer) ε α} {first : Action Structure ε α}
    {next' : α → Action (Hand E dealer) ε β} {next : α → Action Structure ε β}
    (h : Tracks R first' first s t Q) (keeps : first.Obeys Action.Keeps) (valid : s.Valid)
    (rest : ∀ a a' u v, Leads R s t u v → Q a a' u v → Tracks R (next' a') (next a) u v Q') :
    Tracks R (Action.andThen first' next') (Action.andThen first next) s t Q' := by
  intro n
  obtain ⟨⟨hevents, hanswer, hdouble⟩, htallies⟩ := h n
  rcases hanswer with ⟨e, ha, ha'⟩ | ⟨a, a', ha, ha', hq⟩
  · rw [Action.andThen_of_error ha, Action.andThen_of_error ha']
    exact ⟨⟨hevents, Or.inl ⟨e, rfl, rfl⟩, hdouble⟩, htallies⟩
  · obtain ⟨hvalid, hgrows⟩ := keeps s valid
    have hrest := rest a a' _ _ ⟨hvalid, hgrows, hdouble, htallies⟩ hq
      (first' ⟨t, n⟩).after.iteration
    obtain ⟨⟨hevents', hanswer', hdouble'⟩, htallies'⟩ := hrest
    rw [Action.andThen_of_ok ha, Action.andThen_of_ok ha']
    exact ⟨⟨congrArg₂ _ hevents hevents', hanswer', hdouble'⟩, htallies.trans htallies'⟩

theorem tracks_give {a a' : α} (double : t.Doubles R s) (hq : Q a a' s t) :
    Tracks R (Action.give a' : Action (Hand E dealer) ε α) (Action.give a) s t Q :=
  fun _ => ⟨⟨rfl, Or.inr ⟨a, a', rfl, rfl, hq⟩, double⟩, .refl t⟩

theorem tracks_fail (e : ε) (double : t.Doubles R s) :
    Tracks R (Action.fail e : Action (Hand E dealer) ε α) (Action.fail e) s t Q :=
  fun _ => ⟨⟨rfl, Or.inl ⟨e, rfl, rfl⟩, double⟩, .refl t⟩

theorem Tracks.mapError {dealt : Action (Hand E dealer) ε α} {action : Action Structure ε α}
    (h : Tracks R dealt action s t Q) (rename : ε → φ) :
    Tracks R (Action.mapError rename dealt) (Action.mapError rename action) s t Q := by
  intro n
  obtain ⟨⟨hevents, hanswer, hdouble⟩, htallies⟩ := h n
  refine ⟨⟨hevents, ?_, hdouble⟩, htallies⟩
  rcases hanswer with ⟨e, ha, ha'⟩ | ⟨a, a', ha, ha', hq⟩
  · refine Or.inl ⟨rename e, ?_, ?_⟩
    · simp [Action.mapError, ha, Except.mapError]
    · simp [Action.mapError, ha', Except.mapError]
  · refine Or.inr ⟨a, a', ?_, ?_, hq⟩
    · simp [Action.mapError, ha, Except.mapError]
    · simp [Action.mapError, ha', Except.mapError]

theorem mirrors_give (a : α) :
    Mirrors R (Action.give a : Action (Hand E dealer) ε α) (Action.give a) :=
  ⟨Action.obeys_give Action.Keeps.refl a, fun _ _ _ double => tracks_give double rfl⟩

theorem mirrors_fail (e : ε) :
    Mirrors R (Action.fail e : Action (Hand E dealer) ε α) (Action.fail e) :=
  ⟨Action.obeys_fail Action.Keeps.refl e, fun _ _ _ double => tracks_fail e double⟩

theorem mirrors_report (event : Event) :
    Mirrors R (Action.report event : Action (Hand E dealer) ε Unit) (Action.report event) :=
  ⟨Action.obeys_report Action.Keeps.refl event, fun _ t _ double _ =>
    ⟨⟨rfl, Or.inr ⟨(), (), rfl, rfl, rfl⟩, double⟩, .refl t⟩⟩

theorem mirrors_ofExcept (result : Except ε α) :
    Mirrors R (Action.ofExcept result : Action (Hand E dealer) ε α) (Action.ofExcept result) := by
  cases result with
  | error e => exact mirrors_fail e
  | ok a => exact mirrors_give a

theorem mirrors_ofOption (e : ε) (value : Option α) :
    Mirrors R (Action.ofOption e value : Action (Hand E dealer) ε α) (Action.ofOption e value) := by
  cases value with
  | none => exact mirrors_fail e
  | some a => exact mirrors_give a

theorem mirrors_refuse (error : Option ε) :
    Mirrors R (Action.refuse error : Action (Hand E dealer) ε Unit) (Action.refuse error) := by
  cases error with
  | none => exact mirrors_give ()
  | some e => exact mirrors_fail e

theorem Mirrors.first {first' : Action (Hand E dealer) ε α} {first : Action Structure ε α}
    {next' : α → Action (Hand E dealer) ε β} {next : α → Action Structure ε β}
    (h : Mirrors R first' first) (valid : s.Valid) (double : t.Doubles R s)
    (rest : ∀ a u v, Leads R s t u v → Tracks R (next' a) (next a) u v Q') :
    Tracks R (Action.andThen first' next') (Action.andThen first next) s t Q' := by
  apply (h.tracks s t valid double).andThen h.keeps valid
  intro a a' u v leads he
  exact he ▸ rest a u v leads

theorem Mirrors.andThen {first' : Action (Hand E dealer) ε α} {first : Action Structure ε α}
    {next' : α → Action (Hand E dealer) ε β} {next : α → Action Structure ε β}
    (h : Mirrors R first' first) (rest : ∀ a, Mirrors R (next' a) (next a)) :
    Mirrors R (Action.andThen first' next') (Action.andThen first next) := by
  refine ⟨h.keeps.andThen Action.Keeps.trans fun a => (rest a).keeps, fun s t valid double => ?_⟩
  apply h.first valid double
  exact fun a u v leads => (rest a).tracks u v leads.valid leads.double

theorem Mirrors.mapError {dealt : Action (Hand E dealer) ε α} {action : Action Structure ε α}
    (h : Mirrors R dealt action) (rename : ε → φ) :
    Mirrors R (Action.mapError rename dealt) (Action.mapError rename action) :=
  ⟨h.keeps.mapError rename, fun s t valid double => (h.tracks s t valid double).mapError rename⟩

section Answers

variable {dealt : Action (Hand E dealer) ε α} {action : Action Structure ε α} {hand : Hand E dealer}
  (h : Mirrors R dealt action) (valid : s.Valid) (double : hand.held.Doubles R s)

include h valid double

theorem Mirrors.answer : (dealt hand).answer = (action s).answer := by
  obtain ⟨e, ha, ha'⟩ | ⟨a, a', ha, ha', he⟩ := (h.tracks s _ valid double hand.iteration).1.answer
  · exact ha'.trans ha.symm
  · exact ha'.trans (he ▸ ha.symm)

theorem Mirrors.after : (dealt hand).after.held.Doubles R (action s).after :=
  (h.tracks s _ valid double hand.iteration).1.double

end Answers

theorem mirrors_each {action' : α → Action (Hand E dealer) ε Unit}
    {action : α → Action Structure ε Unit} (h : ∀ a, Mirrors R (action' a) (action a))
    (as : List α) : Mirrors R (Action.each action' as) (Action.each action as) := by
  induction as with
  | nil => exact mirrors_give ()
  | cons a as ih => exact (h a).andThen fun _ => ih

end

section Store

variable [PartitionStore E] {R : E → Equality → Prop} {Q : α → α → Structure → Structure E → Prop}
  {s : Structure} {t : Structure E}

theorem tracks_current {next' : Structure E → Action (Hand E dealer) ε α}
    {next : Structure → Action Structure ε α} (h : Tracks R (next' t) (next s) s t Q) :
    Tracks R (Action.current >>= next') (Action.current >>= next) s t Q :=
  h

theorem tracks_update {change : Structure → Structure} {change' : Structure E → Structure E}
    {a a' : α} (double : (change' t).Doubles R (change s)) (tallies : t.Tallies (change' t))
    (hq : Q a a' (change s) (change' t)) :
    Tracks R (Action.update change' >>= fun _ => pure a' : Action (Hand E dealer) ε α)
      (Action.update change >>= fun _ => pure a) s t Q :=
  fun _ => ⟨⟨rfl, Or.inr ⟨a, a', rfl, rfl, hq⟩, double⟩, tallies⟩

/-- What is read off a structure is read off its doubles. -/
theorem mirrors_read {reading : Structure → α} {reading' : Structure E → α}
    (h : ∀ s t, s.Valid → t.Doubles R s → reading' t = reading s) :
    Mirrors R (Action.current >>= fun t => pure (reading' t) : Action (Hand E dealer) ε α)
      (Action.current >>= fun s => pure (reading s)) :=
  ⟨fun s => Action.Keeps.refl s, fun s t valid double =>
    tracks_current (tracks_give double (h s t valid double))⟩

end Store

end Hand

end Tracking

end PartialHorn
