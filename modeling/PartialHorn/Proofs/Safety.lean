import PartialHorn.Call
import PartialHorn.Proofs.Recording

namespace PartialHorn

namespace Action

section Passes

variable {R : Structure → Structure → Prop} (refl : ∀ s, R s s)
  (trans : ∀ s t u, R s t → R t u → R s u)
  (rebuilds : (rebuild : Action Structure ContractError Nat).Obeys R)

include refl trans rebuilds

theorem solve_obeys (rule : Rule) : (solve rule).Obeys R :=
  rebuilds.andThen trans fun _ => obeys_ask refl _

theorem turn_obeys {rule : Rule} (fires : ∀ binding, (fire rule binding).Obeys R)
    (last : Option Readings) : (turn rule last).Obeys R := by
  refine rebuilds.andThen trans fun _ => (obeys_current refl).andThen trans fun s => ?_
  dsimp only
  split
  next => exact obeys_give refl _
  next =>
    refine (solve_obeys refl trans rebuilds rule).andThen trans fun found => ?_
    refine (obeys_report refl _).andThen trans fun _ => ?_
    exact (obeys_each refl trans fun b _ => fires b).andThen trans fun _ => obeys_give refl _

section

variable {rules : List Rule} (takes : ∀ rule ∈ rules, ∀ last, (turn rule last).Obeys R)

include takes

omit rebuilds in
theorem turns_obeys (seen : List (Option Readings)) : (turns rules seen).Obeys R := by
  induction rules generalizing seen with
  | nil => exact obeys_give refl _
  | cons rule rules ih =>
    cases seen with
    | nil => exact obeys_give refl _
    | cons last lasts =>
      refine (takes rule (by simp) last).andThen trans fun _ => ?_
      refine (ih (fun other h => takes other (List.mem_cons_of_mem rule h)) lasts).andThen trans ?_
      exact fun _ => obeys_give refl _

/-- A relation that no turn can leave holds between the two ends of a pass. -/
theorem pass_obeys (seen : List (Option Readings)) : (pass rules seen).Obeys R := by
  refine (obeys_current refl).andThen trans fun _ => rebuilds.andThen trans fun _ => ?_
  refine (turns_obeys refl trans takes seen).andThen trans fun _ => ?_
  refine rebuilds.andThen trans fun _ => (obeys_current refl).andThen trans fun _ => ?_
  exact obeys_give refl _

theorem chaseOnce_obeys : (chaseOnce rules).Obeys R :=
  ((pass_obeys refl trans rebuilds takes _).mapError _).andThen trans fun _ => obeys_give refl _

theorem saturateFrom_obeys (budget : Budget) (clock : Clock) (passes : Nat) (progress : Progress) :
    (saturateFrom rules budget clock passes progress).Obeys R := by
  induction passes generalizing progress with
  | zero => exact obeys_give refl _
  | succ passes ih =>
    have hpass := pass_obeys refl trans rebuilds takes progress.seen
    refine (hpass.mapError ClosureError.structure).andThen trans fun pass => ?_
    refine (obeys_current refl).andThen trans fun s => ?_
    refine (obeys_report refl _).andThen trans fun _ => ?_
    split
    next =>
      split
      next => exact (obeys_report refl _).andThen trans fun _ => obeys_fail refl _
      next => exact ih _
    next => exact obeys_give refl _

/-- A relation that no turn can leave holds between the two ends of a run, however it ends. -/
theorem saturate_obeys (budget : Budget) (clock : Clock) (passes : Nat) :
    (saturate rules budget clock passes).Obeys R := by
  refine (obeys_current refl).andThen trans fun _ => ?_
  refine (saturateFrom_obeys refl trans rebuilds takes budget clock passes _).andThen trans ?_
  exact fun _ => (obeys_current refl).andThen trans fun _ => obeys_give refl _

end

end Passes

section Calls

/-- A relation between structures that the actions on single facts cannot leave. -/
structure Lasting (R : Structure → Structure → Prop) : Prop where
  refl : ∀ s, R s s
  trans : ∀ s t u, R s t → R t u → R s u
  rebuild : (rebuild : Action Structure ContractError Nat).Obeys R
  add : ∀ sort, (add sort).Obeys R
  define : ∀ op args, (define op args).Obeys R
  assert : ∀ pred args, (assert pred args).Obeys R
  merge : ∀ x y, (merge x y).Obeys R

namespace Lasting

variable {R : Structure → Structure → Prop} (lasting : Lasting R)

include lasting

theorem andThen {ε α β : Type} {first : Action Structure ε α} {next : α → Action Structure ε β}
    (h : first.Obeys R) (h' : ∀ a, (next a).Obeys R) : (Action.andThen first next).Obeys R :=
  Obeys.andThen lasting.trans h h'

theorem give {ε α : Type} (a : α) : (Action.give a : Action Structure ε α).Obeys R :=
  obeys_give lasting.refl a

theorem current {ε : Type} : (Action.current : Action Structure ε Structure).Obeys R :=
  obeys_current lasting.refl

theorem ofExcept {ε α : Type} (result : Except ε α) : (Action.ofExcept result).Obeys R :=
  obeys_ofExcept lasting.refl result

theorem applied (op : Nat) (args : List Nat) : (applied op args).Obeys R := by
  refine lasting.andThen lasting.current fun s => ?_
  refine lasting.andThen (obeys_ofOption lasting.refl _ _) fun operation => ?_
  refine lasting.andThen (obeys_refuse lasting.refl _) fun _ => ?_
  refine lasting.andThen lasting.rebuild fun _ => ?_
  exact lasting.andThen (obeys_ask lasting.refl _) fun _ => lasting.give _

theorem related (pred : Nat) (args : List Nat) : (related pred args).Obeys R := by
  refine lasting.andThen lasting.current fun s => ?_
  refine lasting.andThen (obeys_ofOption lasting.refl _ _) fun predicate => ?_
  refine lasting.andThen (obeys_refuse lasting.refl _) fun _ => ?_
  exact lasting.andThen lasting.rebuild fun _ => obeys_ask lasting.refl _

theorem lookup (op : Nat) (args : List Nat) : (lookup op args).Obeys R :=
  lasting.andThen (lasting.applied op args) fun _ => lasting.andThen lasting.current fun _ =>
    lasting.give _

theorem holds (pred : Nat) (args : List Nat) : (holds pred args).Obeys R :=
  lasting.andThen (lasting.related pred args) fun _ => lasting.andThen lasting.current fun _ =>
    lasting.give _

theorem mergeFor (rule : Rule) (x y : Nat) : (mergeFor rule x y).Obeys R := by
  refine lasting.andThen (lasting.merge x y) fun merged => ?_
  split
  next => exact obeys_report lasting.refl _
  next => exact lasting.give _

theorem conclude (rule : Rule) (binding : Binding) (atom : Atom) :
    (conclude rule binding atom).Obeys R := by
  cases atom with
  | op op args result =>
    refine lasting.andThen (lasting.ofExcept _) fun args => ?_
    refine lasting.andThen (lasting.define op args) fun x => ?_
    split
    next => exact lasting.andThen (lasting.mergeFor rule _ x) fun _ => lasting.give _
    next => exact lasting.give _
  | pred pred args =>
    refine lasting.andThen (lasting.ofExcept _) fun args => ?_
    exact lasting.andThen (lasting.assert pred args) fun _ => lasting.give _
  | eq lhs rhs =>
    refine lasting.andThen (lasting.ofExcept _) fun x => ?_
    refine lasting.andThen (lasting.ofExcept _) fun y => ?_
    exact lasting.andThen (lasting.mergeFor rule x y) fun _ => lasting.give _

theorem concludeAll (rule : Rule) (atoms : List Atom) (binding : Binding) :
    (concludeAll rule atoms binding).Obeys R := by
  induction atoms generalizing binding with
  | nil => exact lasting.give _
  | cons atom atoms ih =>
    exact lasting.andThen (lasting.conclude rule binding atom) fun larger => ih larger

theorem fire (rule : Rule) (binding : Binding) : (fire rule binding).Obeys R :=
  lasting.concludeAll rule rule.head binding

theorem turn (rule : Rule) (last : Option Readings) : (turn rule last).Obeys R :=
  turn_obeys lasting.refl lasting.trans lasting.rebuild (lasting.fire rule) last

theorem chaseOnce (rules : List Rule) : (chaseOnce rules).Obeys R :=
  chaseOnce_obeys lasting.refl lasting.trans lasting.rebuild fun rule _ last => lasting.turn rule last

theorem saturate (rules : List Rule) (budget : Budget) (clock : Clock) (passes : Nat) :
    (saturate rules budget clock passes).Obeys R :=
  saturate_obeys lasting.refl lasting.trans lasting.rebuild (fun rule _ last => lasting.turn rule last)
    budget clock passes

end Lasting

section Asked

variable {R : Structure → Structure → Prop} (refl : ∀ s, R s s)
  (trans : ∀ s t u, R s t → R t u → R s u)

include refl trans

theorem asked_obeys {α : Type} {action : Action Structure ContractError α} (h : action.Obeys R)
    (wrap : α → Answer) : (asked wrap action).Obeys R :=
  (h.mapError _).andThen trans fun _ => obeys_give refl _

theorem chased_obeys {α : Type} {action : Action Structure ClosureError α} (h : action.Obeys R)
    (wrap : α → Answer) : (chased wrap action).Obeys R :=
  (h.mapError _).andThen trans fun _ => obeys_give refl _

end Asked

/-- No call can leave a relation that the actions on single facts cannot leave, be it a chase with
any rules. -/
theorem Lasting.perform {R : Structure → Structure → Prop} (lasting : Lasting R) (call : Call) :
    call.perform.Obeys R := by
  have asked : ∀ {α : Type} {action : Action Structure ContractError α} (wrap : α → Answer),
      action.Obeys R → (Action.asked wrap action).Obeys R := fun wrap h =>
    asked_obeys lasting.refl lasting.trans h wrap
  have ask : ∀ {α : Type} (question : Structure → Except ContractError α),
      (Action.ask question).Obeys R := fun question => obeys_ask lasting.refl question
  cases call with
  | add sort => exact asked _ (lasting.add sort)
  | define op args => exact asked _ (lasting.define op args)
  | lookup op args => exact asked _ (lasting.lookup op args)
  | assert pred args => exact asked _ (lasting.assert pred args)
  | holds pred args => exact asked _ (lasting.holds pred args)
  | merge x y => exact asked _ (lasting.merge x y)
  | areEqual x y => exact asked _ (ask fun s => s.equality.areEqual x y)
  | find x => exact asked _ (ask fun s => s.equality.find x)
  | sortOf x => exact asked _ (ask fun s => s.sortOf x)
  | rebuild => exact asked _ lasting.rebuild
  | classes => exact asked _ (ask fun s => .ok s.equality.classes)
  | solve rule => exact asked _ (solve_obeys lasting.refl lasting.trans lasting.rebuild rule)
  | chaseOnce rules => exact chased_obeys lasting.refl lasting.trans (lasting.chaseOnce rules) _
  | chase rules budget clock passes =>
    exact chased_obeys lasting.refl lasting.trans (lasting.saturate rules budget clock passes) _

end Calls

/-- A structure that has grown out of a valid one and is valid itself. -/
def Keeps (s t : Structure) : Prop :=
  s.Valid → t.Valid ∧ s.Grows t

theorem Keeps.refl (s : Structure) : Keeps s s :=
  fun valid => ⟨valid, .refl valid⟩

theorem Keeps.trans (s t u : Structure) (h : Keeps s t) (h' : Keeps t u) : Keeps s u := by
  intro valid
  obtain ⟨valid', grows⟩ := h valid
  obtain ⟨valid'', grows'⟩ := h' valid'
  exact ⟨valid'', grows.trans grows'⟩

theorem Refuses.keeps {ε α : Type} {action : Action Structure ε α} {s : Structure}
    (h : action.Refuses s) : Keeps s (action s).after := by
  rw [h.2]
  exact Keeps.refl s

theorem Returns.keeps {ε α : Type} {action : Action Structure ε α} {s t : Structure} {a : α}
    (h : action.Returns s a t) (valid : t.Valid) (grows : s.Grows t) :
    Keeps s (action s).after := by
  rw [h.2]
  exact fun _ => ⟨valid, grows⟩

theorem Returns.kept {ε α : Type} {action : Action Structure ε α} {s t : Structure} {a : α}
    (h : action.Returns s a t) (keeps : action.Obeys Keeps) (valid : s.Valid) :
    t.Valid ∧ s.Grows t := by
  have hkept := keeps s valid
  rwa [h.2] at hkept

open Structure

theorem rebuild_keeps : (rebuild : Action Structure ContractError Nat).Obeys Keeps :=
  fun _ valid => ⟨renewed_valid valid, grows_renewed valid⟩

theorem add_keeps (sort : Nat) : (add sort).Obeys Keeps := by
  intro s valid
  rcases add_cases valid sort with ⟨_, h⟩ | ⟨_, h⟩
  · exact h.keeps valid
  · exact h.keeps (extended_valid sort valid) (extended_grows sort valid) valid

theorem create_keeps (sort : Nat) : (create sort).Obeys Keeps := fun _ valid =>
  (create_returns valid sort).keeps (extended_valid sort valid) (extended_grows sort valid) valid

theorem define_keeps (op : Nat) (args : List Nat) : (define op args).Obeys Keeps := by
  intro s valid
  have grows := grows_renewed valid
  rcases define_cases valid op args with ⟨_, h⟩ | ⟨operation, happ, ⟨x, _, h⟩ | ⟨_, h⟩⟩
  · exact h.keeps valid
  · exact h.keeps (renewed_valid valid) grows valid
  · exact h.keeps (defined_valid valid happ) (grows.trans (defined_grows valid op _ args)) valid

theorem assert_keeps (pred : Nat) (args : List Nat) : (assert pred args).Obeys Keeps := by
  intro s valid
  have valid' := renewed_valid valid
  rcases assert_cases valid pred args with ⟨_, h⟩ | ⟨predicate, hrel, h⟩
  · exact h.keeps valid
  · have hsig := (renews_renewed valid).signature
    refine h.keeps (withTuple_valid valid' (hsig ▸ hrel.1) (key_typed valid hrel.2) ?_) ?_ valid
    · exact key_canonical valid hrel.2.lt_size
    · exact (grows_renewed valid).trans (withTuple_grows valid')

theorem merge_keeps (x y : Nat) : (merge x y).Obeys Keeps := by
  intro s valid
  rcases merge_cases valid x y with ⟨_, h⟩ | ⟨sort, merged, equality, hx, hy, merges, h⟩
  · exact h.keeps valid
  · exact h.keeps (joined_valid valid merges (hx.trans hy.symm)) (joined_grows valid merges) valid

theorem keeps_lasting : Lasting Keeps where
  refl := Keeps.refl
  trans := Keeps.trans
  rebuild := rebuild_keeps
  add := add_keeps
  define := define_keeps
  assert := assert_keeps
  merge := merge_keeps

theorem mergeFor_keeps (rule : Rule) (x y : Nat) : (mergeFor rule x y).Obeys Keeps :=
  keeps_lasting.mergeFor rule x y

theorem conclude_keeps (rule : Rule) (binding : Binding) (atom : Atom) :
    (conclude rule binding atom).Obeys Keeps :=
  keeps_lasting.conclude rule binding atom

theorem concludeAll_keeps (rule : Rule) (atoms : List Atom) (binding : Binding) :
    (concludeAll rule atoms binding).Obeys Keeps :=
  keeps_lasting.concludeAll rule atoms binding

theorem fire_keeps (rule : Rule) (binding : Binding) : (fire rule binding).Obeys Keeps :=
  keeps_lasting.fire rule binding

theorem turn_keeps (rule : Rule) (last : Option Readings) : (turn rule last).Obeys Keeps :=
  keeps_lasting.turn rule last

theorem turns_keeps (rules : List Rule) (seen : List (Option Readings)) :
    (turns rules seen).Obeys Keeps :=
  turns_obeys Keeps.refl Keeps.trans (fun rule _ last => turn_keeps rule last) seen

theorem pass_keeps (rules : List Rule) (seen : List (Option Readings)) :
    (pass rules seen).Obeys Keeps :=
  pass_obeys Keeps.refl Keeps.trans rebuild_keeps (fun rule _ last => turn_keeps rule last) seen

theorem saturateFrom_keeps (rules : List Rule) (budget : Budget) (clock : Clock) (passes : Nat)
    (progress : Progress) : (saturateFrom rules budget clock passes progress).Obeys Keeps :=
  saturateFrom_obeys Keeps.refl Keeps.trans rebuild_keeps (fun rule _ last => turn_keeps rule last)
    budget clock passes progress

end Action

/-- Whatever a call does, it keeps a structure valid, and what was true stays true. -/
theorem Call.perform_keeps (call : Call) : call.perform.Obeys Action.Keeps :=
  Action.keeps_lasting.perform call

namespace Structure

/-- A structure that some sequence of calls makes of the empty structure of a signature. -/
def Reachable (sig : Signature) (s : Structure) : Prop :=
  ∃ calls, s = (empty sig).afterCalls calls

theorem empty_valid (sig : Signature) : (empty sig).Valid where
  partition := Equality.empty_valid
  tracked := rfl
  drained := rfl
  carried := by
    have hnil : ∀ sort, positions (· == sort) (empty sig).sorts = [] := fun _ => rfl
    simp only [hnil, List.map_const', List.length_range]
    rfl
  oneSort x y h := by
    obtain ⟨r, hx, _⟩ := h
    simp [empty] at hx
  operationArities := forall₂_map_right fun _ _ => rfl
  predicateArities := forall₂_map_right fun _ _ => rfl
  keyed table h := by
    obtain ⟨operation, _, rfl⟩ := List.mem_map.mp h
    exact List.nodup_nil
  unrepeated table h := by
    obtain ⟨predicate, _, rfl⟩ := List.mem_map.mp h
    exact List.nodup_nil
  rowTyped op row h := by
    obtain ⟨table, ht, hrow⟩ := h
    obtain ⟨operation, _, rfl⟩ := List.mem_map.mp (List.mem_of_getElem? ht)
    simp at hrow
  tupleTyped pred tuple h := by
    obtain ⟨table, ht, htuple⟩ := h
    obtain ⟨predicate, _, rfl⟩ := List.mem_map.mp (List.mem_of_getElem? ht)
    simp [PredicateTable.rows] at htuple
  rowCanonical _ op row h := by
    obtain ⟨table, ht, hrow⟩ := h
    obtain ⟨operation, _, rfl⟩ := List.mem_map.mp (List.mem_of_getElem? ht)
    simp at hrow
  tupleCanonical _ pred tuple h := by
    obtain ⟨table, ht, htuple⟩ := h
    obtain ⟨predicate, _, rfl⟩ := List.mem_map.mp (List.mem_of_getElem? ht)
    simp [PredicateTable.rows] at htuple

theorem afterCalls_lasting {R : Structure → Structure → Prop} (lasting : Action.Lasting R)
    (calls : List Call) (s : Structure) : R s (s.afterCalls calls) := by
  induction calls generalizing s with
  | nil => exact lasting.refl s
  | cons call calls ih => exact lasting.trans _ _ _ (lasting.perform call s) (ih _)

theorem afterCalls_keeps (calls : List Call) (s : Structure) :
    Action.Keeps s (s.afterCalls calls) :=
  afterCalls_lasting Action.keeps_lasting calls s

theorem Reachable.valid {sig : Signature} {s : Structure} (h : Reachable sig s) : s.Valid := by
  obtain ⟨calls, rfl⟩ := h
  exact (afterCalls_keeps calls _ (empty_valid sig)).1

theorem Reachable.signature_eq {sig : Signature} {s : Structure} (h : Reachable sig s) :
    s.signature = sig := by
  obtain ⟨calls, rfl⟩ := h
  exact (afterCalls_keeps calls _ (empty_valid sig)).2.signature

end Structure

end PartialHorn
