import PartialHorn.Chase
import PartialHorn.Proofs.Matches

namespace PartialHorn

/-- Selections from one list that are defined at the same members and agree as lists agree at each
member. -/
theorem filterMap_inj {α β : Type} {f g : α → Option β} {xs : List α}
    (hsome : ∀ x ∈ xs, (f x).isSome = (g x).isSome) (h : xs.filterMap f = xs.filterMap g) :
    ∀ x ∈ xs, f x = g x := by
  induction xs with
  | nil => simp
  | cons y xs ih =>
    have hy := hsome y (by simp)
    have hrest := fun x hx => hsome x (List.mem_cons_of_mem y hx)
    cases hf : f y with
    | none =>
      have hg : g y = none := by simpa [hf] using hy.symm
      rw [List.filterMap_cons_none hf, List.filterMap_cons_none hg] at h
      exact fun x hx => (List.mem_cons.mp hx).elim (fun he => by rw [he, hf, hg]) (ih hrest h x)
    | some a =>
      obtain ⟨b, hg⟩ : ∃ b, g y = some b := Option.isSome_iff_exists.mp (by rw [← hy, hf]; rfl)
      rw [List.filterMap_cons_some hf, List.filterMap_cons_some hg, List.cons.injEq] at h
      obtain ⟨hab, h⟩ := h
      exact fun x hx => (List.mem_cons.mp hx).elim (fun he => by rw [he, hf, hg, hab]) (ih hrest h x)

theorem filterMap_length {α β γ : Type} {f : α → Option β} {g : α → Option γ} {xs : List α}
    (h : ∀ x ∈ xs, (f x).isSome = (g x).isSome) :
    (xs.filterMap f).length = (xs.filterMap g).length := by
  rw [List.length_filterMap_eq_countP, List.length_filterMap_eq_countP]
  exact List.countP_congr fun x hx => by rw [h x hx]

theorem isSome_getElem?_of_length {α β : Type} {xs : List α} {ys : List β}
    (h : xs.length = ys.length) (i : Nat) : (xs[i]?).isSome = (ys[i]?).isSome := by
  by_cases hi : i < xs.length
  · rw [List.getElem?_eq_getElem hi, List.getElem?_eq_getElem (h ▸ hi)]
    rfl
  · rw [List.getElem?_eq_none (by omega), List.getElem?_eq_none (by omega)]
    rfl

namespace Structure

def Alike (s t : Structure) (step : Step) : Prop :=
  (∀ f, step.operation? = some f → s.operations[f]? = t.operations[f]?) ∧
    ∀ p, step.predicate? = some p → s.predicates[p]? = t.predicates[p]?

theorem extensions_congr {s t : Structure} {step : Step} (h : s.Alike t step) (domains : Domains)
    (b : Binding) : s.extensions domains b step = t.extensions domains b step := by
  cases step with
  | op op args result => simp only [extensions, h.1 op rfl]
  | pred pred args => simp only [extensions, h.2 pred rfl]
  | scan var sort => rfl
  | eq lhs rhs => rfl

theorem extensionsAlong_congr {s t : Structure} {steps : List Step}
    (h : ∀ step ∈ steps, s.Alike t step) (domains : Domains) (b : Binding) :
    s.extensionsAlong domains steps b = t.extensionsAlong domains steps b := by
  induction steps generalizing b with
  | nil => rfl
  | cons step steps ih =>
    simp only [extensionsAlong, extensions_congr (h step (by simp))]
    exact List.flatMap_congr fun m _ => ih (fun other ho => h other (List.mem_cons_of_mem step ho)) m

section Same

variable {s t : Structure} (grows : s.Grows t)

include grows

theorem canonicalCarrier_eq (valid : s.Valid)
    (hmerges : t.equality.merges = s.equality.merges) {sort : Nat}
    (h : s.carrier? sort = t.carrier? sort) : s.canonicalCarrier sort = t.canonicalCarrier sort := by
  rw [canonicalCarrier, canonicalCarrier, carrier, carrier, ← h]
  refine List.filter_congr fun x hx => ?_
  obtain ⟨rest, hrest⟩ := grows.reps hmerges
  have hlt : x < s.equality.reps.length := by
    have hsort := valid.sort_of_mem_carrier hx
    have htracked := valid.tracked
    rw [Equality.size] at htracked
    exact htracked ▸ (List.getElem?_eq_some_iff.mp hsort).1
  rw [Equality.isRepresentative, Equality.isRepresentative, ← hrest, List.getElem?_append_left hlt]

/-- Equal readings mean equal tables and equal carriers wherever the plan looks. -/
theorem same_of_readings {rule : Rule} (h : rule.readings t = rule.readings s) :
    t.equality.merges = s.equality.merges ∧
      (∀ op ∈ rule.operationsRead, s.operations[op]? = t.operations[op]?) ∧
      (∀ pred ∈ rule.predicatesRead, s.predicates[pred]? = t.predicates[pred]?) ∧
      ∀ sort ∈ rule.sortsScanned, s.carrier? sort = t.carrier? sort := by
  have hops : ∀ op ∈ rule.operationsRead, (t.operations[op]?).isSome = (s.operations[op]?).isSome := by
    intro op _
    exact isSome_getElem?_of_length grows.operations.length_eq.symm op
  have hpreds : ∀ pred ∈ rule.predicatesRead,
      (t.predicates[pred]?).isSome = (s.predicates[pred]?).isSome := by
    intro pred _
    exact isSome_getElem?_of_length grows.predicates.length_eq.symm pred
  have hsorts : ∀ sort ∈ rule.sortsScanned, (t.carrier? sort).isSome = (s.carrier? sort).isSome := by
    intro sort _
    exact isSome_getElem?_of_length grows.carriers.length_eq.symm sort
  simp only [Rule.readings, List.cons_append, List.cons.injEq] at h
  obtain ⟨hmerges, h⟩ := h
  obtain ⟨h, hc⟩ := List.append_inj h (by
    simp only [List.length_append, List.length_map, filterMap_length hops, filterMap_length hpreds])
  obtain ⟨ho, hp⟩ := List.append_inj h (by
    simp only [List.length_map, filterMap_length hops])
  rw [List.map_filterMap, List.map_filterMap] at ho hp hc
  refine ⟨hmerges, fun op hop => ?_, fun pred hpred => ?_, fun sort hsort => ?_⟩
  · have hgen := filterMap_inj (fun op hop => by simp [hops op hop]) ho op hop
    cases hs : s.operations[op]? with
    | none => simpa [hs] using hops op hop
    | some a =>
      obtain ⟨b, hb, hprec⟩ := forall₂_getElem? grows.operations hs
      rw [hs, hb] at hgen
      rw [hb, hprec.unchanged (Option.some.inj hgen)]
  · have hgen := filterMap_inj (fun pred hpred => by simp [hpreds pred hpred]) hp pred hpred
    cases hs : s.predicates[pred]? with
    | none => simpa [hs] using hpreds pred hpred
    | some a =>
      obtain ⟨b, hb, hprec⟩ := forall₂_getElem? grows.predicates hs
      rw [hs, hb] at hgen
      rw [hb, hprec.unchanged (Option.some.inj hgen)]
  · have hlen := filterMap_inj (fun sort hsort => by simp [hsorts sort hsort]) hc sort hsort
    cases hs : s.carrier? sort with
    | none =>
      have hnone : t.carrier? sort = none := by simpa [hs] using hsorts sort hsort
      exact hnone.symm
    | some a =>
      obtain ⟨b, hb, hprefix⟩ := forall₂_getElem? grows.carriers hs
      have hb' : t.carrier? sort = some b := hb
      rw [hs, hb', Option.map_some, Option.map_some] at hlen
      rw [hb', hprefix.eq_of_length (Option.some.inj hlen).symm]

/-- A rule whose readings have not changed has the same matches as before. -/
theorem solutions_eq_of_readings (valid : s.Valid) {sig : Signature} {seq : Sequent} {rule : Rule}
    (compiles : Rule.Compiles sig seq rule) (h : rule.readings t = rule.readings s) : t.solutions rule = s.solutions rule := by
  obtain ⟨hmerges, hops, hpreds, hsorts⟩ := same_of_readings grows h
  have hdomains : s.domains rule = t.domains rule :=
    List.map_congr_left fun sort hsort => by
      rw [canonicalCarrier_eq grows valid hmerges (hsorts sort hsort)]
  rw [solutions, solutions, hdomains]
  refine congrArg ascending (extensionsAlong_congr (fun step hstep => ?_) _ _).symm
  refine ⟨fun f hf => ?_, fun p hp => ?_⟩
  · refine hops f ?_
    rw [compiles.operationsRead]
    exact (compiles.reads_exact.operations.2 f).mpr ⟨step, hstep, hf⟩
  · refine hpreds p ?_
    rw [compiles.predicatesRead]
    exact (compiles.reads_exact.predicates.2 p).mpr ⟨step, hstep, hp⟩

end Same

end Structure

end PartialHorn
