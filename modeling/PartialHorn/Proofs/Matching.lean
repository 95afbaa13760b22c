import PartialHorn.Join
import PartialHorn.Proofs.Satisfaction

namespace PartialHorn

namespace Binding

def Binds (b : Binding) (var : Nat) : Prop :=
  ∃ x, b.value var = some x

/-- A binding with at least the values of another one. -/
structure Extends (m b : Binding) : Prop where
  length : m.length = b.length
  value : ∀ var x, b.value var = some x → m.value var = some x

theorem Extends.refl (b : Binding) : b.Extends b :=
  ⟨rfl, fun _ _ h => h⟩

theorem Extends.trans {a b c : Binding} (h : a.Extends b) (h' : b.Extends c) : a.Extends c :=
  ⟨h.length.trans h'.length, fun var x hx => h.value var x (h'.value var x hx)⟩

theorem Extends.reads {m b : Binding} (h : m.Extends b) {vars xs : List Nat}
    (hx : Valuation.Reads b.value vars xs) : Valuation.Reads m.value vars xs :=
  hx.imp fun var x => h.value var x

theorem ext_value {b c : Binding} (hlen : b.length = c.length)
    (h : ∀ var, b.value var = c.value var) : b = c := by
  refine List.ext_getElem hlen fun i hi hi' => ?_
  have hv := h i
  simp only [value, List.getElem?_eq_getElem hi, List.getElem?_eq_getElem hi', Option.getD_some] at hv
  exact hv

/-- A binding that extends another one without binding more variables is the same. -/
theorem Extends.eq_of_binds {m b : Binding} (h : m.Extends b) (hb : ∀ var, m.Binds var → b.Binds var) :
    m = b := by
  refine ext_value h.length fun var => ?_
  cases hv : b.value var with
  | some x => exact h.value var x hv
  | none =>
    cases hm : m.value var with
    | none => rfl
    | some x =>
      obtain ⟨y, hy⟩ := hb var ⟨x, hm⟩
      exact nomatch hv.symm.trans hy

theorem lt_length_of_value {b : Binding} {var x : Nat} (h : b.value var = some x) :
    var < b.length := by
  by_contra hlt
  rw [value, List.getElem?_eq_none (by omega)] at h
  exact nomatch h

theorem assign_length (b : Binding) (var x : Nat) : (b.assign var x).length = b.length :=
  List.length_set

theorem assign_value {b : Binding} {var : Nat} (h : var < b.length) (x : Nat) :
    (b.assign var x).value = Function.update b.value var (some x) := by
  funext other
  by_cases he : other = var
  · subst he
    rw [Function.update_self, value, assign, List.getElem?_set_self h, Option.getD_some]
  · rw [Function.update_of_ne he, value, assign, List.getElem?_set_ne (Ne.symm he), value]

theorem values?_eq_some_iff {b : Binding} {vars xs : List Nat} :
    b.values? vars = some xs ↔ Valuation.Reads b.value vars xs :=
  mapM_eq_some_iff

theorem binds_of_reads {b : Binding} {vars xs : List Nat} (h : Valuation.Reads b.value vars xs) :
    ∀ var ∈ vars, b.Binds var := by
  intro var hvar
  obtain ⟨x, _, hx⟩ := forall₂_right_of_mem h hvar
  exact ⟨x, hx⟩

def blank (n : Nat) : Binding :=
  List.replicate n none

theorem blank_length (n : Nat) : (blank n).length = n :=
  List.length_replicate

theorem blank_value (n var : Nat) : (blank n).value var = none := by
  rw [value, blank, List.getElem?_replicate]
  split
  next => rfl
  next => rfl

theorem blank_not_binds (n var : Nat) : ¬(blank n).Binds var := by
  rintro ⟨x, hx⟩
  rw [blank_value] at hx
  exact nomatch hx

theorem assign_extends {b : Binding} {var : Nat} (h : var < b.length) (x : Nat)
    (hnone : b.value var = none) : (b.assign var x).Extends b := by
  refine ⟨assign_length b var x, fun other y hy => ?_⟩
  rw [assign_value h]
  by_cases he : other = var
  · subst he
    exact nomatch hnone.symm.trans hy
  · rwa [Function.update_of_ne he]

theorem assign_binds {b : Binding} {var : Nat} (h : var < b.length) (x other : Nat) :
    (b.assign var x).Binds other ↔ b.Binds other ∨ other = var := by
  rw [Binds, assign_value h]
  by_cases he : other = var
  · subst he
    rw [Function.update_self]
    exact ⟨fun _ => Or.inr rfl, fun _ => ⟨x, rfl⟩⟩
  · rw [Function.update_of_ne he]
    exact ⟨Or.inl, fun hb => hb.resolve_right he⟩

/-- A binding that has been matched with values has them, and binds nothing else that is new. -/
theorem unify?_sound {b m : Binding} {vars xs : List Nat} (hlen : vars.length = xs.length)
    (hlt : ∀ var ∈ vars, var < b.length) (h : b.unify? vars xs = some m) :
    m.Extends b ∧ Valuation.Reads m.value vars xs ∧ ∀ var, m.Binds var ↔ b.Binds var ∨ var ∈ vars := by
  induction vars generalizing b xs with
  | nil =>
    cases List.length_eq_zero_iff.mp hlen.symm
    cases Option.some.inj h
    exact ⟨.refl _, .nil, fun var => by simp⟩
  | cons var vars ih =>
    cases xs with
    | nil => simp at hlen
    | cons x xs =>
      have hlen' : vars.length = xs.length := by simpa using hlen
      have hvar := hlt var (by simp)
      have hvars : ∀ v ∈ vars, v < b.length := fun v hv => hlt v (List.mem_cons_of_mem var hv)
      rw [unify?] at h
      cases hv : b.value var with
      | some y =>
        simp only [hv] at h
        split at h
        next he =>
          obtain ⟨hext, hreads, hbinds⟩ := ih hlen' hvars h
          refine ⟨hext, .cons (he ▸ hext.value var y hv) hreads, fun other => ?_⟩
          rw [hbinds, List.mem_cons]
          constructor
          · rintro (hb | hm)
            · exact Or.inl hb
            · exact Or.inr (Or.inr hm)
          · rintro (hb | rfl | hm)
            · exact Or.inl hb
            · exact Or.inl ⟨y, hv⟩
            · exact Or.inr hm
        next => exact nomatch h
      | none =>
        simp only [hv] at h
        obtain ⟨hext, hreads, hbinds⟩ := ih hlen' (by rwa [assign_length]) h
        have hx : (b.assign var x).value var = some x := by rw [assign_value hvar, Function.update_self]
        refine ⟨hext.trans (assign_extends hvar x hv), .cons (hext.value var x hx) hreads, ?_⟩
        intro other
        rw [hbinds, assign_binds hvar, List.mem_cons, or_assoc]

/-- A binding can be matched with the values that a larger one has. -/
theorem unify?_complete {b c : Binding} {vars xs : List Nat} (hext : c.Extends b)
    (hreads : Valuation.Reads c.value vars xs) : ∃ m, b.unify? vars xs = some m ∧ c.Extends m := by
  induction hreads generalizing b with
  | nil => exact ⟨b, by rw [unify?]; simp, hext⟩
  | @cons var x vars xs hx _ ih =>
    rw [unify?]
    cases hv : b.value var with
    | some y =>
      have he := Option.some.inj ((hext.value var y hv).symm.trans hx)
      simp only [if_pos he]
      exact ih hext
    | none =>
      have hlt : var < b.length := hext.length ▸ lt_length_of_value hx
      refine ih ⟨hext.length.trans (assign_length b var x).symm, fun other z hz => ?_⟩
      rw [assign_value hlt] at hz
      by_cases he : other = var
      · subst he
        rw [Function.update_self] at hz
        exact Option.some.inj hz ▸ hx
      · rw [Function.update_of_ne he] at hz
        exact hext.value other z hz

theorem alongRows_sound {b m : Binding} {args : List Nat} {result : Nat} {rows : List Row}
    (hlen : ∀ row ∈ rows, row.args.length = args.length) (hargs : ∀ var ∈ args, var < b.length)
    (hresult : result < b.length) (h : m ∈ b.alongRows args result rows) :
    m.Extends b ∧ (∃ row ∈ rows, Valuation.Reads m.value args row.args ∧
      m.value result = some row.result) ∧
      ∀ var, m.Binds var ↔ b.Binds var ∨ var ∈ args ++ [result] := by
  obtain ⟨row, hrow, h⟩ := List.mem_filterMap.mp h
  obtain ⟨mid, hmid, h⟩ := Option.bind_eq_some_iff.mp h
  obtain ⟨hext, hreads, hbinds⟩ := unify?_sound (hlen row hrow).symm hargs hmid
  have hlt : ∀ var ∈ [result], var < mid.length := by
    intro var hvar
    rw [List.mem_singleton.mp hvar, hext.length]
    exact hresult
  have hone : [result].length = [row.result].length := rfl
  obtain ⟨hext', hreads', hbinds'⟩ := unify?_sound hone hlt h
  refine ⟨hext'.trans hext, ⟨row, hrow, hext'.reads hreads, ?_⟩, fun var => ?_⟩
  · exact (List.forall₂_cons.mp hreads').1
  · rw [hbinds', hbinds, List.mem_append, or_assoc]

theorem alongRows_complete {b c : Binding} {args : List Nat} {result : Nat} {rows : List Row}
    {row : Row} (hext : c.Extends b) (hrow : row ∈ rows)
    (hargs : Valuation.Reads c.value args row.args) (hresult : c.value result = some row.result) :
    ∃ m ∈ b.alongRows args result rows, c.Extends m := by
  obtain ⟨mid, hmid, hext'⟩ := unify?_complete hext hargs
  obtain ⟨m, hm, hext''⟩ := unify?_complete hext' (List.Forall₂.cons hresult .nil)
  exact ⟨m, List.mem_filterMap.mpr ⟨row, hrow, Option.bind_eq_some_iff.mpr ⟨mid, hmid, hm⟩⟩, hext''⟩

end Binding

end PartialHorn
