import PartialHorn.Proofs.Compilation
import PartialHorn.Proofs.Matching

namespace PartialHorn

/-- The variables that a step may bind. -/
def Step.vars : Step → List Nat
  | .op _ args result => args ++ [result]
  | .pred _ args => args
  | .scan var _ => [var]
  | .eq _ _ => []

namespace Structure

/-- A step is fulfilled by the values that a binding has for its variables. -/
def Fulfils (s : Structure) (domains : Domains) (m : Binding) : Step → Prop
  | .op op args result => ∃ row, s.HasRow op row ∧ Valuation.Reads m.value args row.args ∧
      m.value result = some row.result
  | .pred pred args => ∃ tuple, s.HasTuple pred tuple ∧ Valuation.Reads m.value args tuple
  | .scan var sort => ∃ x ∈ domains.elements sort, m.value var = some x
  | .eq lhs rhs => ∃ x, m.value lhs = some x ∧ m.value rhs = some x

/-- A step fits the tables, and a binding of some length has room for its variables. -/
def Admits (s : Structure) (n : Nat) : Step → Prop
  | .op op args result => (∀ var ∈ args, var < n) ∧ result < n ∧
      ∀ row, s.HasRow op row → row.args.length = args.length
  | .pred pred args => (∀ var ∈ args, var < n) ∧
      ∀ tuple, s.HasTuple pred tuple → tuple.length = args.length
  | .scan var _ => var < n
  | .eq _ _ => True

theorem Fulfils.mono {s : Structure} {domains : Domains} {m c : Binding} (hext : c.Extends m)
    {step : Step} (h : s.Fulfils domains m step) : s.Fulfils domains c step := by
  cases step with
  | op op args result =>
    obtain ⟨row, hrow, hargs, hresult⟩ := h
    exact ⟨row, hrow, hext.reads hargs, hext.value _ _ hresult⟩
  | pred pred args =>
    obtain ⟨tuple, htuple, hargs⟩ := h
    exact ⟨tuple, htuple, hext.reads hargs⟩
  | scan var sort =>
    obtain ⟨x, hx, hvar⟩ := h
    exact ⟨x, hx, hext.value _ _ hvar⟩
  | eq lhs rhs =>
    obtain ⟨x, hl, hr⟩ := h
    exact ⟨x, hext.value _ _ hl, hext.value _ _ hr⟩

/-- What one step makes of a binding. A scan of a variable that has a value already checks
nothing. -/
structure Extended (s : Structure) (domains : Domains) (b m : Binding) (step : Step) : Prop where
  larger : m.Extends b
  binds : ∀ var, m.Binds var ↔ b.Binds var ∨ var ∈ step.vars
  fulfils : (∀ var sort, step = .scan var sort → ¬b.Binds var) → s.Fulfils domains m step

section Sound

variable {s : Structure} {domains : Domains} {b m : Binding}

theorem extensions_op_sound {op result : Nat} {args : List Nat}
    (admits : s.Admits b.length (.op op args result))
    (h : m ∈ s.extensions domains b (.op op args result)) :
    s.Extended domains b m (.op op args result) := by
  obtain ⟨hargs, hresult, harity⟩ := admits
  simp only [extensions] at h
  cases ht : s.operations[op]? with
  | none => simp [ht] at h
  | some table =>
    simp only [ht] at h
    cases hkey : b.values? args with
    | none =>
      simp only [hkey] at h
      obtain ⟨hext, ⟨row, hrow, hreads, hres⟩, hbinds⟩ := Binding.alongRows_sound
        (fun row hrow => harity row ⟨table, ht, hrow⟩) hargs hresult h
      exact ⟨hext, hbinds, fun _ => ⟨row, ⟨table, ht, hrow⟩, hreads, hres⟩⟩
    | some key =>
      simp only [hkey, Option.mem_toList] at h
      obtain ⟨x, hx, h⟩ := Option.bind_eq_some_iff.mp h
      have hone : [result].length = [x].length := rfl
      have hlt : ∀ var ∈ [result], var < b.length := fun var hvar => by
        rw [List.mem_singleton.mp hvar]
        exact hresult
      have hreads := Binding.values?_eq_some_iff.mp hkey
      obtain ⟨hext, hres, hbinds⟩ := Binding.unify?_sound hone hlt h
      refine ⟨hext, fun var => ?_, fun _ => ?_⟩
      · rw [hbinds, Step.vars, List.mem_append]
        constructor
        · rintro (hb | hr)
          · exact Or.inl hb
          · exact Or.inr (Or.inr hr)
        · rintro (hb | ha | hr)
          · exact Or.inl hb
          · exact Or.inl (Binding.binds_of_reads hreads var ha)
          · exact Or.inr hr
      · refine ⟨⟨key, x⟩, ⟨table, ht, OperationTable.mem_of_get? hx⟩, hext.reads hreads, ?_⟩
        exact (List.forall₂_cons.mp hres).1

theorem extensions_pred_sound {pred : Nat} {args : List Nat}
    (admits : s.Admits b.length (.pred pred args))
    (h : m ∈ s.extensions domains b (.pred pred args)) :
    s.Extended domains b m (.pred pred args) := by
  obtain ⟨hargs, harity⟩ := admits
  simp only [extensions] at h
  cases ht : s.predicates[pred]? with
  | none => simp [ht] at h
  | some table =>
    simp only [ht] at h
    cases hkey : b.values? args with
    | none =>
      simp only [hkey] at h
      obtain ⟨tuple, htuple, h⟩ := List.mem_filterMap.mp h
      obtain ⟨hext, hreads, hbinds⟩ :=
        Binding.unify?_sound (harity tuple ⟨table, ht, htuple⟩).symm hargs h
      exact ⟨hext, hbinds, fun _ => ⟨tuple, ⟨table, ht, htuple⟩, hreads⟩⟩
    | some tuple =>
      simp only [hkey] at h
      have hreads := Binding.values?_eq_some_iff.mp hkey
      split at h
      next hc =>
        cases List.mem_singleton.mp h
        refine ⟨.refl _, fun var => ?_, fun _ => ?_⟩
        · refine ⟨Or.inl, fun hb => hb.elim id fun hvar => ?_⟩
          exact Binding.binds_of_reads hreads var hvar
        · exact ⟨tuple, ⟨table, ht, PredicateTable.contains_iff.mp hc⟩, hreads⟩
      next => simp at h

theorem extensions_scan_sound {var sort : Nat} (hlt : var < b.length)
    (h : m ∈ s.extensions domains b (.scan var sort)) :
    s.Extended domains b m (.scan var sort) := by
  simp only [extensions] at h
  cases hv : b.value var with
  | some y =>
    simp only [hv, List.mem_singleton] at h
    subst h
    refine ⟨.refl _, fun other => ?_, fun hfresh => absurd ⟨y, hv⟩ (hfresh var sort rfl)⟩
    refine ⟨Or.inl, fun hb => hb.elim id fun hvar => ?_⟩
    rw [List.mem_singleton.mp hvar]
    exact ⟨y, hv⟩
  | none =>
    simp only [hv] at h
    obtain ⟨x, hx, rfl⟩ := List.mem_map.mp h
    refine ⟨Binding.assign_extends hlt x hv, fun other => ?_, fun _ => ⟨x, hx, ?_⟩⟩
    · rw [Binding.assign_binds hlt, Step.vars, List.mem_singleton]
    · rw [Binding.assign_value hlt, Function.update_self]

theorem extensions_sound {step : Step} (admits : s.Admits b.length step)
    (h : m ∈ s.extensions domains b step) : s.Extended domains b m step := by
  cases step with
  | op op args result => exact extensions_op_sound admits h
  | pred pred args => exact extensions_pred_sound admits h
  | scan var sort => exact extensions_scan_sound admits h
  | eq lhs rhs =>
    simp only [extensions] at h
    split at h
    next hv =>
      cases List.mem_singleton.mp h
      obtain ⟨x, hx⟩ := Option.isSome_iff_exists.mp hv.1
      exact ⟨.refl _, fun var => by simp [Step.vars], fun _ => ⟨x, hx, hv.2 ▸ hx⟩⟩
    next => simp at h

end Sound

/-- A step misses no way in which a larger binding fulfils it. -/
theorem extensions_complete {s : Structure} (valid : s.Valid) {domains : Domains} {b c : Binding}
    {step : Step} (hext : c.Extends b) (h : s.Fulfils domains c step)
    (hbound : ∀ lhs rhs, step = .eq lhs rhs → b.Binds lhs ∧ b.Binds rhs) :
    ∃ m ∈ s.extensions domains b step, c.Extends m := by
  cases step with
  | op op args result =>
    obtain ⟨row, ⟨table, ht, hrow⟩, hargs, hresult⟩ := h
    simp only [extensions, ht]
    cases hkey : b.values? args with
    | none => exact Binding.alongRows_complete hext hrow hargs hresult
    | some key =>
      have hreads := hext.reads (Binding.values?_eq_some_iff.mp hkey)
      have he : key = row.args := by
        refine forall₂_unique (fun var x y hx hy => ?_) hreads hargs
        exact Option.some.inj (hx.symm.trans hy)
      have hget : table.get? key = some row.result := by
        rw [OperationTable.get?_eq_some_iff (valid.keyed table (List.mem_of_getElem? ht)), he]
        exact hrow
      obtain ⟨m, hm, hext'⟩ := Binding.unify?_complete hext (List.Forall₂.cons hresult .nil)
      refine ⟨m, ?_, hext'⟩
      simp only [hget, Option.bind_some, hm]
      simp
  | pred pred args =>
    obtain ⟨tuple, ⟨table, ht, htuple⟩, hargs⟩ := h
    simp only [extensions, ht]
    cases hkey : b.values? args with
    | none =>
      obtain ⟨m, hm, hext'⟩ := Binding.unify?_complete hext hargs
      exact ⟨m, List.mem_filterMap.mpr ⟨tuple, htuple, hm⟩, hext'⟩
    | some key =>
      have hreads := hext.reads (Binding.values?_eq_some_iff.mp hkey)
      have he : key = tuple := by
        refine forall₂_unique (fun var x y hx hy => ?_) hreads hargs
        exact Option.some.inj (hx.symm.trans hy)
      simp only [he, PredicateTable.contains_iff.mpr htuple, if_true]
      exact ⟨b, by simp, hext⟩
  | scan var sort =>
    obtain ⟨x, hx, hvar⟩ := h
    simp only [extensions]
    cases hv : b.value var with
    | some y => exact ⟨b, by simp, hext⟩
    | none =>
      have hlt : var < b.length := hext.length ▸ Binding.lt_length_of_value hvar
      refine ⟨_, List.mem_map_of_mem hx, hext.length.trans (Binding.assign_length b var x).symm, ?_⟩
      intro other z hz
      rw [Binding.assign_value hlt] at hz
      by_cases he : other = var
      · subst he
        rw [Function.update_self] at hz
        exact Option.some.inj hz ▸ hvar
      · rw [Function.update_of_ne he] at hz
        exact hext.value other z hz
  | eq lhs rhs =>
    obtain ⟨x, hl, hr⟩ := h
    obtain ⟨⟨y, hy⟩, ⟨z, hz⟩⟩ := hbound lhs rhs rfl
    have hyx := Option.some.inj ((hext.value _ _ hy).symm.trans hl)
    have hzx := Option.some.inj ((hext.value _ _ hz).symm.trans hr)
    refine ⟨b, ?_, hext⟩
    simp [extensions, hy, hz, hyx, hzx]

section Along

variable {s : Structure} {domains : Domains}

theorem extensionsAlong_append (steps steps' : List Step) (b : Binding) :
    s.extensionsAlong domains (steps ++ steps') b =
      (s.extensionsAlong domains steps b).flatMap (s.extensionsAlong domains steps') := by
  induction steps generalizing b with
  | nil => simp [extensionsAlong]
  | cons step steps ih =>
    simp only [List.cons_append, extensionsAlong, List.flatMap_assoc]
    exact List.flatMap_congr fun m _ => ih m

/-- A plan that scans only variables without values is fulfilled by what it finds. -/
theorem extensionsAlong_sound {steps : List Step} {b m : Binding}
    (admits : ∀ step ∈ steps, s.Admits b.length step)
    (fresh : ∀ var sort, .scan var sort ∈ steps → ¬b.Binds var)
    (apart : steps.Pairwise fun earlier later => ∀ var sort, later = .scan var sort →
      var ∉ earlier.vars)
    (h : m ∈ s.extensionsAlong domains steps b) :
    m.Extends b ∧ (∀ var, m.Binds var ↔ b.Binds var ∨ var ∈ steps.flatMap Step.vars) ∧
      ∀ step ∈ steps, s.Fulfils domains m step := by
  induction steps generalizing b with
  | nil =>
    cases List.mem_singleton.mp h
    exact ⟨.refl _, by simp, by simp⟩
  | cons step steps ih =>
    obtain ⟨mid, hmid, h⟩ := List.mem_flatMap.mp h
    obtain ⟨hfirst, happart⟩ := List.pairwise_cons.mp apart
    obtain ⟨hext, hbinds, hfulfils⟩ := extensions_sound (admits step (by simp)) hmid
    have hlen : mid.length = b.length := hext.length
    obtain ⟨hext', hbinds', hfulfils'⟩ := ih
      (fun later hl => hlen ▸ admits later (List.mem_cons_of_mem step hl))
      (fun var sort hl hb => by
        rcases (hbinds var).mp hb with hb | hv
        · exact fresh var sort (List.mem_cons_of_mem step hl) hb
        · exact hfirst _ hl var sort rfl hv)
      happart h
    refine ⟨hext'.trans hext, fun var => ?_, fun other ho => ?_⟩
    · rw [hbinds', hbinds, List.flatMap_cons, List.mem_append, or_assoc]
    · rcases List.mem_cons.mp ho with rfl | ho
      · refine (hfulfils fun var sort he hb => ?_).mono hext'
        exact fresh var sort (by rw [he]; simp) hb
      · exact hfulfils' other ho

theorem extensionsAlong_complete (valid : s.Valid) {steps : List Step} {b c : Binding}
    (hext : c.Extends b) (h : ∀ step ∈ steps, s.Fulfils domains c step)
    (hbound : ∀ lhs rhs, .eq lhs rhs ∈ steps → b.Binds lhs ∧ b.Binds rhs)
    (admits : ∀ step ∈ steps, s.Admits b.length step) :
    ∃ m ∈ s.extensionsAlong domains steps b, c.Extends m := by
  induction steps generalizing b with
  | nil => exact ⟨b, by simp [extensionsAlong], hext⟩
  | cons step steps ih =>
    obtain ⟨mid, hmid, hext'⟩ := extensions_complete valid hext (h step (by simp))
      fun lhs rhs he => hbound lhs rhs (by rw [he]; simp)
    obtain ⟨hfirst, hbinds, _⟩ := extensions_sound (admits step (by simp)) hmid
    have hlen : mid.length = b.length := hfirst.length
    obtain ⟨m, hm, hlast⟩ := ih hext' (fun other ho => h other (List.mem_cons_of_mem step ho))
      (fun lhs rhs he => by
        obtain ⟨hl, hr⟩ := hbound lhs rhs (List.mem_cons_of_mem step he)
        exact ⟨(hbinds lhs).mpr (Or.inl hl), (hbinds rhs).mpr (Or.inl hr)⟩)
      (fun other ho => hlen ▸ admits other (List.mem_cons_of_mem step ho))
    exact ⟨m, List.mem_flatMap.mpr ⟨mid, hmid, hm⟩, hlast⟩

end Along

end Structure

end PartialHorn
