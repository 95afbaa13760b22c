import PartialHorn.Proofs.Saturation

namespace PartialHorn

/-- A call that works on single facts. The chase is none. -/
def Call.Hosted : Call → Prop
  | .chaseOnce _ => False
  | .chase _ _ _ _ => False
  | _ => True

/-- What a host has recorded: the pairs that it merged, the values that it got for operations, and
the tuples that it asserted. -/
structure Ledger where
  merged : List (Nat × Nat) := []
  applications : List (Nat × Row) := []
  asserted : List (Nat × List Nat) := []

namespace Ledger

/-- The ledger after a call and its answer. A call that fails records nothing. -/
def noted (l : Ledger) : Call → Except Failure Answer → Ledger
  | .define op args, .ok (.number x) => { l with applications := (op, ⟨args, x⟩) :: l.applications }
  | .assert pred args, .ok _ => { l with asserted := (pred, args) :: l.asserted }
  | .merge x y, .ok _ => { l with merged := (x, y) :: l.merged }
  | _, _ => l

def afterCalls (l : Ledger) (s : Structure) : List Call → Ledger
  | [] => l
  | call :: calls => (l.noted call (call.perform s).answer).afterCalls (call.perform s).after calls

/-- An equivalence that contains the merged pairs, and for which an operation has equal values at
equal arguments. -/
structure Closed (l : Ledger) (R : Nat → Nat → Prop) : Prop where
  equivalence : Equivalence R
  merged : ∀ x y, (x, y) ∈ l.merged → R x y
  applications : ∀ op row row', (op, row) ∈ l.applications → (op, row') ∈ l.applications →
    List.Forall₂ R row.args row'.args → R row.result row'.result

/-- The congruence closure: what every such equivalence relates. -/
def Related (l : Ledger) (x y : Nat) : Prop :=
  ∀ R, l.Closed R → R x y

/-- The congruence closure is the least of these equivalences. -/
theorem related_closed (l : Ledger) : l.Closed l.Related where
  equivalence := by
    refine ⟨fun x R closed => closed.equivalence.refl x, fun h R closed => ?_, fun h h' R closed => ?_⟩
    · exact closed.equivalence.symm (h R closed)
    · exact closed.equivalence.trans (h R closed) (h' R closed)
  merged x y h R closed := closed.merged x y h
  applications op row row' h h' hargs R closed :=
    closed.applications op row row' h h' (hargs.imp fun _ _ hxy => hxy R closed)

/-- All entries of a ledger are in a later one. -/
structure Extends (l l' : Ledger) : Prop where
  merged : l.merged ⊆ l'.merged
  applications : l.applications ⊆ l'.applications
  asserted : l.asserted ⊆ l'.asserted

theorem Closed.of_extends {l l' : Ledger} (h : l.Extends l') {R : Nat → Nat → Prop}
    (closed : l'.Closed R) : l.Closed R where
  equivalence := closed.equivalence
  merged x y hmem := closed.merged x y (h.merged hmem)
  applications op row row' hrow hrow' :=
    closed.applications op row row' (h.applications hrow) (h.applications hrow')

theorem Related.mono {l l' : Ledger} (h : l.Extends l') {x y : Nat} (hxy : l.Related x y) :
    l'.Related x y :=
  fun R closed => hxy R (closed.of_extends h)

theorem noted_extends (l : Ledger) (call : Call) (answer : Except Failure Answer) :
    l.Extends (l.noted call answer) := by
  have refl : l.Extends l := ⟨List.Subset.refl _, List.Subset.refl _, List.Subset.refl _⟩
  unfold noted
  split
  next => exact ⟨List.Subset.refl _, List.subset_cons_self _ _, List.Subset.refl _⟩
  next => exact ⟨List.Subset.refl _, List.Subset.refl _, List.subset_cons_self _ _⟩
  next => exact ⟨List.subset_cons_self _ _, List.Subset.refl _, List.Subset.refl _⟩
  next => exact refl

/-- Nothing is in a structure without a reason in the ledger. -/
structure Justifies (l : Ledger) (s : Structure) : Prop where
  equal : ∀ x y, s.Equal x y → l.Related x y
  rows : ∀ op row, s.HasRow op row → ∃ old, (op, old) ∈ l.applications ∧
    List.Forall₂ l.Related old.args row.args ∧ l.Related old.result row.result
  tuples : ∀ pred tuple, s.HasTuple pred tuple → ∃ old, (pred, old) ∈ l.asserted ∧
    List.Forall₂ l.Related old tuple

/-- Everything in the ledger is true in a structure. -/
structure HoldsIn (l : Ledger) (s : Structure) : Prop where
  merged : ∀ x y, (x, y) ∈ l.merged → s.Equal x y
  applications : ∀ op row, (op, row) ∈ l.applications → s.Applies op row.args row.result
  asserted : ∀ pred tuple, (pred, tuple) ∈ l.asserted → s.Relates pred tuple

theorem HoldsIn.grows {l : Ledger} {s t : Structure} (h : l.HoldsIn s) (grows : s.Grows t) :
    l.HoldsIn t where
  merged x y hmem := grows.equal x y (h.merged x y hmem)
  applications op row hmem := grows.applies (h.applications op row hmem)
  asserted pred tuple hmem := grows.relates (h.asserted pred tuple hmem)

/-- What is recorded makes elements equal, if the merges have reached the tables. -/
theorem HoldsIn.equal {l : Ledger} {s : Structure} (h : l.HoldsIn s) (valid : s.Valid)
    (clean : s.dirty = false) {x y : Nat} (hx : x < s.size) (hxy : l.Related x y) : s.Equal x y := by
  have closed : l.Closed fun x y => x = y ∨ s.Equal x y := by
    refine ⟨Structure.eq_or_equal_equivalence s, fun x y hmem => Or.inr (h.merged x y hmem), ?_⟩
    intro op row row' hrow hrow' hargs
    have happlies := h.applications op row hrow
    obtain ⟨hlt, hresult, _⟩ := (valid.applies_iff clean).mp happlies
    have hcongr := happlies.congr (valid.equal_all_of_or hlt hargs) (valid.equal_refl hresult)
    exact Or.inr (valid.applies_unique clean hcongr (h.applications op row' hrow'))
  exact (hxy _ closed).elim (fun he => he ▸ valid.equal_refl hx) id

namespace Justifies

variable {l l' : Ledger} {s t : Structure} (h : l.Justifies s)

include h

theorem mono (extends' : l.Extends l') : l'.Justifies s where
  equal x y he := (h.equal x y he).mono extends'
  rows op row hrow := by
    obtain ⟨old, hold, hargs, hresult⟩ := h.rows op row hrow
    exact ⟨old, extends'.applications hold, hargs.imp fun _ _ he => he.mono extends',
      hresult.mono extends'⟩
  tuples pred tuple ht := by
    obtain ⟨old, hold, htuple⟩ := h.tuples pred tuple ht
    exact ⟨old, extends'.asserted hold, htuple.imp fun _ _ he => he.mono extends'⟩

theorem congruence : s.Congruence l.Related where
  equivalence := l.related_closed.equivalence
  equal := h.equal
  rows op row row' hrow hrow' hargs := by
    have equivalence := l.related_closed.equivalence
    have trans : ∀ x y z, l.Related x y → l.Related y z → l.Related x z := fun _ _ _ =>
      equivalence.trans
    obtain ⟨old, hold, hoa, hor⟩ := h.rows op row hrow
    obtain ⟨old', hold', hoa', hor'⟩ := h.rows op row' hrow'
    have hback := forall₂_swap (fun _ _ => equivalence.symm) hoa'
    have holds := forall₂_trans trans (forall₂_trans trans hoa hargs) hback
    have hresults := l.related_closed.applications op old old' hold hold' holds
    exact trans _ _ _ (equivalence.symm hor) (trans _ _ _ hresults hor')

/-- What a rebuild makes equal is related, so it may be used to go on from what is related. -/
theorem related_equal (renews : s.Renews t) (x y z : Nat) (hxy : l.Related x y)
    (hyz : t.Equal y z) : l.Related x z :=
  l.related_closed.equivalence.trans hxy (renews.least _ h.congruence y z hyz)

theorem renews (renews : s.Renews t) : l.Justifies t where
  equal := renews.least _ h.congruence
  rows op row hrow := by
    obtain ⟨mid, hmid, hma, hmr⟩ := renews.rows op row hrow
    obtain ⟨old, hold, hoa, hor⟩ := h.rows op mid hmid
    have trans := h.related_equal renews
    exact ⟨old, hold, forall₂_trans trans hoa hma, trans _ _ _ hor hmr⟩
  tuples pred tuple ht := by
    obtain ⟨mid, hmid, hm⟩ := renews.tuples pred tuple ht
    obtain ⟨old, hold, ho⟩ := h.tuples pred mid hmid
    exact ⟨old, hold, forall₂_trans (h.related_equal renews) ho hm⟩

theorem extended (valid : s.Valid) (sort : Nat) : l.Justifies (s.extended sort) where
  equal x y he := by
    rcases Structure.extended_equal_cases sort valid he with he | ⟨rfl, rfl⟩
    · exact h.equal x y he
    · exact l.related_closed.equivalence.refl _
  rows := h.rows
  tuples := h.tuples

theorem withRow {op : Nat} {row old : Row} (hold : (op, old) ∈ l.applications)
    (hargs : List.Forall₂ l.Related old.args row.args) (hresult : l.Related old.result row.result) :
    l.Justifies (s.withRow op row) where
  equal := h.equal
  rows f r hr := by
    rcases Structure.withRow_hasRow_cases hr with hr | ⟨rfl, rfl⟩
    · exact h.rows f r hr
    · exact ⟨old, hold, hargs, hresult⟩
  tuples := h.tuples

theorem withTuple {pred : Nat} {tuple old : List Nat} (hold : (pred, old) ∈ l.asserted)
    (htuple : List.Forall₂ l.Related old tuple) : l.Justifies (s.withTuple pred tuple) where
  equal := h.equal
  rows := h.rows
  tuples p t ht := by
    rcases Structure.withTuple_hasTuple_cases ht with ht | ⟨rfl, rfl⟩
    · exact h.tuples p t ht
    · exact ⟨old, hold, htuple⟩

theorem joined {x y : Nat} {merged : Bool} {equality : Equality}
    (merges : s.equality.Merges x y merged equality) (hxy : l.Related x y) :
    l.Justifies (s.joined merged equality) where
  equal := merges.least l.Related l.related_closed.equivalence h.equal hxy
  rows := h.rows
  tuples := h.tuples

end Justifies

/-- A ledger and a structure agree: each says what the other one does. -/
structure Accounts (l : Ledger) (s : Structure) : Prop where
  justifies : l.Justifies s
  holds : l.HoldsIn s

theorem Accounts.renewed {l : Ledger} {s : Structure} (h : l.Accounts s) (valid : s.Valid) :
    l.Accounts s.renewed where
  justifies := h.justifies.renews (Structure.renews_renewed valid)
  holds := h.holds.grows (Structure.grows_renewed valid)

theorem empty_accounts (sig : Signature) : Accounts {} (Structure.empty sig) where
  justifies := by
    have valid := Structure.empty_valid sig
    refine ⟨fun x y h => ?_, fun op row h => ?_, fun pred tuple h => ?_⟩
    · exact absurd (valid.lt_size h) (Nat.not_lt_zero x)
    · exact absurd (valid.row_lt h).2 (Nat.not_lt_zero row.result)
    · obtain ⟨table, ht, htuple⟩ := h
      obtain ⟨predicate, _, rfl⟩ := List.mem_map.mp (List.mem_of_getElem? ht)
      simp [PredicateTable.rows] at htuple
  holds := ⟨fun _ _ h => absurd h List.not_mem_nil, fun _ _ h => absurd h List.not_mem_nil,
    fun _ _ h => absurd h List.not_mem_nil⟩

end Ledger

namespace Action

open Structure

theorem Returns.asked {α : Type} {action : Action Structure ContractError α} {s t : Structure} {a : α}
    (h : action.Returns s a t) (wrap : α → Answer) : (asked wrap action).Returns s (wrap a) t :=
  (returns_mapError.mpr h).andThen (give_returns _ _)

theorem Refuses.asked {α : Type} {action : Action Structure ContractError α} {s : Structure}
    (h : action.Refuses s) (wrap : α → Answer) : (asked wrap action).Refuses s := by
  obtain ⟨⟨e, he⟩, hs⟩ := h
  have hrenamed : (mapError Failure.structure action).Refuses s :=
    ⟨⟨.structure e, congrArg (Except.mapError _) he⟩, hs⟩
  exact hrenamed.andThen _

section Noted

variable {l : Ledger} {s t : Structure} {call : Call}

theorem Refuses.accounts (h : call.perform.Refuses s) (accounts : l.Accounts s) :
    (l.noted call (call.perform s).answer).Accounts (call.perform s).after := by
  obtain ⟨⟨e, he⟩, hs⟩ := h
  rw [he, hs]
  cases call <;> exact accounts

theorem Returns.accounts {answer : Answer} (h : call.perform.Returns s answer t)
    (accounts : (l.noted call (.ok answer)).Accounts t) :
    (l.noted call (call.perform s).answer).Accounts (call.perform s).after := by
  rw [h.1, h.2]
  exact accounts

end Noted

end Action

namespace Ledger

open PartialHorn.Action PartialHorn.Structure

section Entries

variable {l : Ledger} {s : Structure} (h : l.HoldsIn s)

include h

theorem HoldsIn.define {op x : Nat} {args : List Nat} (happlies : s.Applies op args x) :
    (l.noted (.define op args) (.ok (.number x))).HoldsIn s where
  merged := h.merged
  applications f row hmem := by
    rcases List.mem_cons.mp hmem with he | hmem
    · cases he
      exact happlies
    · exact h.applications f row hmem
  asserted := h.asserted

theorem HoldsIn.assert {pred : Nat} {args : List Nat} (answer : Answer)
    (hrelates : s.Relates pred args) : (l.noted (.assert pred args) (.ok answer)).HoldsIn s where
  merged := h.merged
  applications := h.applications
  asserted p tuple hmem := by
    rcases List.mem_cons.mp hmem with he | hmem
    · cases he
      exact hrelates
    · exact h.asserted p tuple hmem

theorem HoldsIn.merge {x y : Nat} (answer : Answer) (hequal : s.Equal x y) :
    (l.noted (.merge x y) (.ok answer)).HoldsIn s where
  merged u v hmem := by
    rcases List.mem_cons.mp hmem with he | hmem
    · cases he
      exact hequal
    · exact h.merged u v hmem
  applications := h.applications
  asserted := h.asserted

end Entries

section Calls

variable {l : Ledger} {s : Structure} (valid : s.Valid) (accounts : l.Accounts s)

include valid accounts

theorem add_accounts (sort : Nat) : (l.noted (.add sort) ((Call.add sort).perform s).answer).Accounts
    ((Call.add sort).perform s).after := by
  rcases add_cases valid sort with ⟨_, h⟩ | ⟨_, h⟩
  · exact Refuses.accounts (h.asked _) accounts
  · refine Returns.accounts (h.asked _) ⟨accounts.justifies.extended valid sort, ?_⟩
    exact accounts.holds.grows (extended_grows sort valid)

/-- The application of a definition is the reason for the row that it puts into the table. -/
theorem define_accounts (op : Nat) (args : List Nat) :
    (l.noted (.define op args) ((Call.define op args).perform s).answer).Accounts
      ((Call.define op args).perform s).after := by
  have renewed := accounts.renewed valid
  rcases define_cases valid op args with ⟨_, h⟩ | ⟨operation, happ, ⟨x, _, h⟩ | ⟨_, h⟩⟩
  · exact Refuses.accounts (h.asked _) accounts
  · refine Returns.accounts (h.asked _) ⟨renewed.justifies.mono (noted_extends l _ _), ?_⟩
    exact renewed.holds.define (define_returns valid h)
  · have grows := defined_grows valid op operation args
    have justifies := renewed.justifies.mono
      (noted_extends l (.define op args) (.ok (.number s.size)))
    refine Returns.accounts (h.asked _) ⟨?_, (renewed.holds.grows grows).define (define_returns valid h)⟩
    have hkey := (key_equal valid happ.2.lt_size).imp justifies.equal
    refine (justifies.extended (renewed_valid valid) operation.codomain).withRow
      (List.mem_cons_self) hkey ?_
    exact (related_closed _).equivalence.refl s.size

theorem assert_accounts (pred : Nat) (args : List Nat) :
    (l.noted (.assert pred args) ((Call.assert pred args).perform s).answer).Accounts
      ((Call.assert pred args).perform s).after := by
  have renewed := accounts.renewed valid
  rcases assert_cases valid pred args with ⟨_, h⟩ | ⟨predicate, hrel, h⟩
  · exact Refuses.accounts (h.asked _) accounts
  · have grows : s.renewed.Grows (s.renewed.withTuple pred (s.key args)) :=
      withTuple_grows (renewed_valid valid)
    have justifies := renewed.justifies.mono
      (noted_extends l (.assert pred args) (.ok (.flag (!s.renewed.hasTuple pred (s.key args)))))
    refine Returns.accounts (h.asked _) ⟨?_, (renewed.holds.grows grows).assert _ (assert_returns valid h)⟩
    have hkey := (key_equal valid hrel.2.lt_size).imp justifies.equal
    exact justifies.withTuple List.mem_cons_self hkey

theorem merge_accounts (x y : Nat) :
    (l.noted (.merge x y) ((Call.merge x y).perform s).answer).Accounts
      ((Call.merge x y).perform s).after := by
  rcases merge_cases valid x y with ⟨_, h⟩ | ⟨sort, merged, equality, _, _, merges, h⟩
  · exact Refuses.accounts (h.asked _) accounts
  · have justifies := accounts.justifies.mono (noted_extends l (.merge x y) (.ok (.flag merged)))
    have hholds := accounts.holds.grows (joined_grows valid merges)
    refine Returns.accounts (h.asked _) ⟨justifies.joined merges ?_, hholds.merge _ merges.joined⟩
    exact (related_closed _).merged x y List.mem_cons_self

omit valid in
/-- A question records nothing. -/
theorem question_accounts {α : Type} (question : Structure → Except ContractError α)
    (wrap : α → Answer) :
    l.Accounts (asked wrap (andThen current fun s => ofExcept (question s)) s).after := by
  have trans : ∀ s t u : Structure, s = t → t = u → s = u := fun _ _ _ => Eq.trans
  have same : s = (asked wrap (andThen current fun s => ofExcept (question s)) s).after :=
    asked_obeys Eq.refl trans (obeys_ask Eq.refl question) wrap s
  rw [← same]
  exact accounts

/-- Ledger and structure still agree after any call other than the chase. -/
theorem call_accounts {call : Call} (hosted : call.Hosted) :
    (l.noted call (call.perform s).answer).Accounts (call.perform s).after := by
  cases call with
  | add sort => exact add_accounts valid accounts sort
  | define op args => exact define_accounts valid accounts op args
  | lookup op args =>
    rcases lookup_cases valid op args with ⟨_, h⟩ | ⟨_, _, h⟩
    · exact Refuses.accounts (h.asked _) accounts
    · exact Returns.accounts (h.asked _) (accounts.renewed valid)
  | assert pred args => exact assert_accounts valid accounts pred args
  | holds pred args =>
    rcases holds_cases valid pred args with ⟨_, h⟩ | ⟨_, _, h⟩
    · exact Refuses.accounts (h.asked _) accounts
    · exact Returns.accounts (h.asked _) (accounts.renewed valid)
  | merge x y => exact merge_accounts valid accounts x y
  | areEqual x y => exact question_accounts accounts (fun s => s.equality.areEqual x y) _
  | find x => exact question_accounts accounts (fun s => s.equality.find x) _
  | sortOf x => exact question_accounts accounts (fun s => s.sortOf x) _
  | rebuild =>
    obtain ⟨_, h⟩ := returns_rebuild valid
    exact Returns.accounts (h.asked _) (accounts.renewed valid)
  | classes => exact question_accounts accounts (fun s => .ok s.equality.classes) _
  | solve rule => exact Returns.accounts ((solve_returns valid rule).asked _) (accounts.renewed valid)
  | chaseOnce rules => exact hosted.elim
  | chase rules budget clock passes => exact hosted.elim

theorem afterCalls_accounts {calls : List Call} (hosted : ∀ call ∈ calls, call.Hosted) :
    (l.afterCalls s calls).Accounts (s.afterCalls calls) := by
  induction calls generalizing l s with
  | nil => exact accounts
  | cons call calls ih =>
    have valid' := (call.perform_keeps s valid).1
    have accounts' := call_accounts valid accounts (hosted call (by simp))
    exact ih valid' accounts' fun other ho => hosted other (List.mem_cons_of_mem call ho)

end Calls

end Ledger

namespace Structure

/-- The structure is the congruence closure of a ledger. Classes are those of the closure, each under
its least element, and the tables have exactly the recorded facts under these. -/
structure Realizes (s : Structure) (l : Ledger) : Prop where
  classes : ∀ x y, x < s.size → y < s.size →
    (s.equality.find x = s.equality.find y ↔ l.Related x y)
  least : ∀ x < s.size, ∃ r, s.equality.find x = .ok r ∧ l.Related x r ∧ ∀ y, l.Related x y → r ≤ y
  rows : ∀ op row, s.HasRow op row ↔ ∃ old, (op, old) ∈ l.applications ∧
    s.equality.findAll old.args = .ok row.args ∧ s.equality.find old.result = .ok row.result
  tuples : ∀ pred tuple, s.HasTuple pred tuple ↔ ∃ old, (pred, old) ∈ l.asserted ∧
    s.equality.findAll old = .ok tuple

section Realizes

variable {s : Structure} (valid : s.Valid) (clean : s.dirty = false) {l : Ledger}
  (accounts : l.Accounts s)

include valid in
theorem Valid.find_root {x : Nat} (hx : x < s.size) :
    s.equality.find x = .ok (s.equality.root x) :=
  Equality.find_eq_ok_iff.mpr (Equality.getElem?_root (valid.tracked ▸ hx))

include valid in
theorem Valid.findAll_roots {xs : List Nat} (hxs : ∀ x ∈ xs, x < s.size) :
    s.equality.findAll xs = .ok (xs.map s.equality.root) :=
  Equality.findAll_known (valid.tracked.symm ▸ hxs)

include valid clean accounts

theorem related_iff_equal {x y : Nat} (hx : x < s.size) : l.Related x y ↔ s.Equal x y :=
  ⟨accounts.holds.equal valid clean hx, accounts.justifies.equal x y⟩

theorem findAll_related {xs ys : List Nat} (hxs : ∀ x ∈ xs, x < s.size)
    (h : List.Forall₂ l.Related xs ys) (canonical : ys.map s.equality.root = ys) :
    s.equality.findAll xs = .ok ys := by
  have hequal : List.Forall₂ s.Equal xs ys := forall₂_imp_of_mem h fun x hx _ _ hxy =>
    (related_iff_equal valid clean accounts (hxs x hx)).mp hxy
  rw [valid.findAll_roots hxs, roots_eq hequal, canonical]

theorem realizes_of_accounts : s.Realizes l where
  classes x y hx hy := by
    have hsame := Equality.same_iff_root (valid.tracked.symm ▸ hx) (valid.tracked.symm ▸ hy)
    rw [related_iff_equal valid clean accounts hx, valid.find_root hx, valid.find_root hy]
    exact ⟨fun h => hsame.mpr (Except.ok.inj h), fun h => congrArg Except.ok (hsame.mp h)⟩
  least x hx := by
    have hroot := valid.equal_root hx
    refine ⟨s.equality.root x, valid.find_root hx, accounts.justifies.equal _ _ hroot, fun y hxy => ?_⟩
    have hequal := (related_iff_equal valid clean accounts hx).mp hxy
    rw [root_eq hequal]
    exact valid.partition.le y _ (Equality.getElem?_root (valid.tracked ▸ valid.lt_size hequal.symm))
  rows op row := by
    have known : ∀ old, (op, old) ∈ l.applications → _ := fun old hold =>
      (valid.applies_iff clean).mp (accounts.holds.applications op old hold)
    constructor
    · intro hrow
      have hcanonical := valid.rowCanonical clean op row hrow
      obtain ⟨old, hold, hargs, hresult⟩ := accounts.justifies.rows op row hrow
      obtain ⟨hlt, hlt', _⟩ := known old hold
      refine ⟨old, hold, findAll_related valid clean accounts hlt hargs (congrArg Row.args hcanonical), ?_⟩
      have hequal := (related_iff_equal valid clean accounts hlt').mp hresult
      rw [valid.find_root hlt', root_eq hequal]
      exact congrArg (Except.ok ∘ Row.result) hcanonical
    · rintro ⟨old, hold, hargs, hresult⟩
      obtain ⟨hlt, hlt', hrow⟩ := known old hold
      rw [valid.findAll_roots hlt] at hargs
      rw [valid.find_root hlt'] at hresult
      rwa [Except.ok.inj hargs, Except.ok.inj hresult] at hrow
  tuples pred tuple := by
    have known : ∀ old, (pred, old) ∈ l.asserted → _ := fun old hold =>
      (valid.relates_iff clean).mp (accounts.holds.asserted pred old hold)
    constructor
    · intro htuple
      have hcanonical := valid.tupleCanonical clean pred tuple htuple
      obtain ⟨old, hold, hargs⟩ := accounts.justifies.tuples pred tuple htuple
      obtain ⟨hlt, _⟩ := known old hold
      exact ⟨old, hold, findAll_related valid clean accounts hlt hargs hcanonical⟩
    · rintro ⟨old, hold, hargs⟩
      obtain ⟨hlt, htuple⟩ := known old hold
      rw [valid.findAll_roots hlt] at hargs
      rwa [Except.ok.inj hargs] at htuple

end Realizes

end Structure

/-- The ledger of calls by a host is realized by the structure that a rebuild leaves after them. -/
theorem Ledger.realized (sig : Signature) {calls : List Call}
    (hosted : ∀ call ∈ calls, call.Hosted) :
    ((Structure.empty sig).afterCalls calls).renewed.Realizes
      (Ledger.afterCalls {} (Structure.empty sig) calls) := by
  have start := Structure.empty_valid sig
  have valid := (Structure.afterCalls_keeps calls _ start).1
  have accounts := Ledger.afterCalls_accounts start (Ledger.empty_accounts sig) hosted
  exact Structure.realizes_of_accounts (Structure.renewed_valid valid) (Structure.renewed_dirty valid)
    (accounts.renewed valid)

/-- A rebuild closes under congruence. Whatever calls a host makes on an empty structure, failed ones
included, a rebuild succeeds after them, and the structure that it leaves is the congruence closure
of what was recorded: nothing is missing there, and nothing has become equal without a reason. -/
theorem rebuild_realizes_ledger (sig : Signature) {calls : List Call}
    (hosted : ∀ call ∈ calls, call.Hosted) :
    (∃ merges, (Action.rebuild ((Structure.empty sig).afterCalls calls)).answer = .ok merges) ∧
      (Action.rebuild ((Structure.empty sig).afterCalls calls)).after.Realizes
        (Ledger.afterCalls {} (Structure.empty sig) calls) := by
  have valid := (Structure.afterCalls_keeps calls _ (Structure.empty_valid sig)).1
  obtain ⟨merges, hrebuild⟩ := Action.returns_rebuild valid
  exact ⟨⟨merges, hrebuild.1⟩, Ledger.realized sig hosted⟩

/-- A sort with an operation and a predicate. -/
def chainSignature : Signature where
  sorts := ["S"]
  operations := [⟨"f", [0], 0⟩]
  predicates := [⟨"P", [0]⟩]

/-- Two elements with their images and the images of these, merged at the bottom; one call fails. -/
def chainCalls : List Call :=
  [.add 0, .add 0, .define 0 [0], .define 0 [1], .define 0 [2], .define 0 [3], .assert 0 [5],
    .merge 1 9, .merge 1 0]

/-- One class is left on each level, with one row between two levels. -/
def chainClosure : Structure where
  signature := chainSignature
  sorts := [0, 0, 0, 0, 0, 0]
  carriers := [[0, 1, 2, 3, 4, 5]]
  equality := { reps := [0, 0, 2, 2, 4, 4], merges := 3 }
  operations := [{ arity := 1, rows := [⟨[0], 2⟩, ⟨[2], 4⟩], generation := 6 }]
  predicates := [{ arity := 1, log := [⟨[5], false⟩, ⟨[4], true⟩], generation := 3 }]

/-- The merge at the bottom makes the images equal, level by level, and no two levels. -/
theorem rebuild_realizes_chain :
    Ledger.afterCalls {} (Structure.empty chainSignature) chainCalls =
        { merged := [(1, 0)]
          applications := [(0, ⟨[3], 5⟩), (0, ⟨[2], 4⟩), (0, ⟨[1], 3⟩), (0, ⟨[0], 2⟩)]
          asserted := [(0, [5])] } ∧
      (Ledger.afterCalls {} (Structure.empty chainSignature) chainCalls).Related 4 5 ∧
      ¬(Ledger.afterCalls {} (Structure.empty chainSignature) chainCalls).Related 0 2 := by
  have hosted : ∀ call ∈ chainCalls, call.Hosted := by
    intro call hcall
    simp only [chainCalls, List.mem_cons, List.not_mem_nil, or_false] at hcall
    rcases hcall with rfl | rfl | rfl | rfl | rfl | rfl | rfl | rfl | rfl <;> trivial
  obtain ⟨_, realizes⟩ := rebuild_realizes_ledger chainSignature hosted
  have rebuilt : (Action.rebuild ((Structure.empty chainSignature).afterCalls chainCalls)).after =
      chainClosure := rfl
  rw [rebuilt] at realizes
  refine ⟨rfl, (realizes.classes 4 5 (by decide) (by decide)).mp rfl, fun h => ?_⟩
  exact absurd ((realizes.classes 0 2 (by decide) (by decide)).mpr h) (by decide)

end PartialHorn
