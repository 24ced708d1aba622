import Mathlib.Data.Nat.Find
import ScriptCheck.Proofs.ScopeTable

/-!
# Ways outwards

In a well-formed table the scopes around a scope are the scope itself and those around its parent
(`WellFormed.ancestors_eq`), and they stay the same while the table grows. The same goes for the
innermost function around a scope.

The scope at an offset is the last one whose region touches the offset. It stays the same while
only scopes are added that do not touch the offset (`Extends.scopeAt_eq`). What a name stands for
depends on the names in the scopes around the place only.
-/

namespace ScriptCheck

open List

namespace SymbolTable

variable {t t' : SymbolTable} {id a b c : Nat} {f : Symbol → Symbol}

/-! ### The scopes around a scope -/

variable {s : Scope} {offset : Nat} {name : String} {x : SymbolId} {symbol : Symbol}

namespace WellFormed

variable (h : t.WellFormed)
include h

/-- The limit on the number of steps is not reached. -/
theorem ancestorsUpTo_congr {n m : Nat} (hn : id ≤ n) (hm : id ≤ m) :
    t.ancestorsUpTo n id = t.ancestorsUpTo m id := by
  have hzero {k : Nat} : t.ancestorsUpTo k 0 = [0] := by
    cases k with
    | zero => rfl
    | succ k =>
      rw [SymbolTable.ancestorsUpTo]
      split
      · next p hp =>
        obtain ⟨s, hs, hparent⟩ := Option.bind_eq_some_iff.1 hp
        have hout := h.outward 0 s hs
        rw [hparent] at hout
        exact absurd hout (Nat.not_lt_zero p)
      · rfl
  induction n generalizing id m with
  | zero =>
    obtain rfl := Nat.le_zero.1 hn
    rw [hzero, hzero]
  | succ n ih =>
    cases m with
    | zero =>
      obtain rfl := Nat.le_zero.1 hm
      rw [hzero, hzero]
    | succ m =>
      rw [SymbolTable.ancestorsUpTo, SymbolTable.ancestorsUpTo]
      cases hp : t.scopes[id]?.bind Scope.parent with
      | none => rfl
      | some p =>
        obtain ⟨s, hs, hparent⟩ := Option.bind_eq_some_iff.1 hp
        have hout := h.outward id s hs
        rw [hparent] at hout
        have hlt : p < id := hout
        have hrest : t.ancestorsUpTo n p = t.ancestorsUpTo m p := ih (by omega) (by omega)
        simp only [hrest]

/-- Around a scope are the scope itself and what is around its parent. -/
theorem ancestors_eq (hs : t.scopes[id]? = some s) :
    t.ancestors id = id :: s.parent.elim [] t.ancestors := by
  have hout := h.outward id s hs
  have hmore : t.ancestors id = t.ancestorsUpTo (id + 1) id :=
    h.ancestorsUpTo_congr (Nat.le_refl id) (Nat.le_succ id)
  rw [hmore, SymbolTable.ancestorsUpTo, hs, Option.bind_some]
  cases hparent : s.parent with
  | none => rfl
  | some p =>
    rw [hparent] at hout
    have hlt : p < id := hout
    have hrest : t.ancestorsUpTo id p = t.ancestors p :=
      h.ancestorsUpTo_congr (Nat.le_of_lt hlt) (Nat.le_refl p)
    simp only [hrest, Option.elim_some]

theorem mem_ancestors_self (hid : t.hasScope id) : id ∈ t.ancestors id := by
  obtain ⟨s, hs⟩ := hasScope_iff.1 hid
  rw [h.ancestors_eq hs]
  exact mem_cons_self

/-- A scope around another one is that one, or around its parent. -/
theorem mem_ancestors_iff (hs : t.scopes[id]? = some s) :
    a ∈ t.ancestors id ↔ a = id ∨ ∃ p, s.parent = some p ∧ a ∈ t.ancestors p := by
  rw [h.ancestors_eq hs, mem_cons]
  cases s.parent with
  | none => simp
  | some p => simp

theorem hasScope_of_mem_ancestors (hid : t.hasScope id) (ha : a ∈ t.ancestors id) : t.hasScope a :=
  (h.ancestorsUpTo hid (Nat.le_refl id)).1 a ha

theorem parent_lt (hs : t.scopes[id]? = some s) (hp : s.parent = some a) : a < id := by
  have hout := h.outward id s hs
  rw [hp] at hout
  exact hout

theorem hasScope_parent (hs : t.scopes[id]? = some s) (hp : s.parent = some a) : t.hasScope a := by
  have hlt := h.parent_lt hs hp
  obtain ⟨hlength, -⟩ := List.getElem?_eq_some_iff.1 hs
  simp only [hasScope, decide_eq_true_eq]
  omega

theorem le_of_mem_ancestors (hid : t.hasScope id) (ha : a ∈ t.ancestors id) : a ≤ id := by
  induction id using Nat.strongRecOn with
  | ind id ih =>
    obtain ⟨s, hs⟩ := hasScope_iff.1 hid
    rcases (h.mem_ancestors_iff hs).1 ha with rfl | ⟨p, hp, hmem⟩
    · exact Nat.le_refl a
    · have hlt := h.parent_lt hs hp
      have hle := ih p hlt (h.hasScope_parent hs hp) hmem
      omega

theorem mem_ancestors_trans (hc : t.hasScope c)
    (ha : a ∈ t.ancestors b) (hb : b ∈ t.ancestors c) : a ∈ t.ancestors c := by
  induction c using Nat.strongRecOn with
  | ind c ih =>
    obtain ⟨s, hs⟩ := hasScope_iff.1 hc
    rcases (h.mem_ancestors_iff hs).1 hb with rfl | ⟨p, hp, hmem⟩
    · exact ha
    · have haround := ih p (h.parent_lt hs hp) (h.hasScope_parent hs hp) hmem
      exact (h.mem_ancestors_iff hs).2 (.inr ⟨p, hp, haround⟩)

end WellFormed

/-- What is around a scope stays the same while the table grows. -/
theorem Extends.ancestors_eq (hext : t'.Extends t) (h : t.WellFormed) (h' : t'.WellFormed)
    (hid : t.hasScope id) : t'.ancestors id = t.ancestors id := by
  induction id using Nat.strongRecOn with
  | ind id ih =>
    obtain ⟨s, hs⟩ := hasScope_iff.1 hid
    obtain ⟨s', hs', hgrew⟩ := hext id s hs
    rw [h.ancestors_eq hs, h'.ancestors_eq hs', hgrew.parent_eq]
    cases hp : s.parent with
    | none => rfl
    | some p =>
      have hrest := ih p (h.parent_lt hs hp) (h.hasScope_parent hs hp)
      simp only [Option.elim_some, hrest]

/-- Around a new scope are the scope itself and what is around the place it is opened at. -/
theorem WellFormed.ancestors_push (h : t.WellFormed) (hid : t.hasScope id) (kind : ScopeKind)
    (span : Span) :
    (t.push kind id span).ancestors t.scopes.length = t.scopes.length :: t.ancestors id := by
  have h' := h.push hid kind span
  have hs : (t.push kind id span).scopes[t.scopes.length]? = some ⟨kind, some id, span, []⟩ := by
    rw [SymbolTable.push, getElem?_concat_length]
  rw [h'.ancestors_eq hs, Option.elim_some, extends_push.ancestors_eq h h' hid]

/-! ### The function around a scope -/

theorem WellFormed.functionScope_le (h : t.WellFormed) (hid : t.hasScope id) :
    t.functionScope id ≤ id :=
  h.le_of_mem_ancestors hid (h.functionScope_mem hid)

theorem Extends.isBlock_eq (hext : t'.Extends t) (hid : t.hasScope id) :
    t'.isBlock id = t.isBlock id := by
  obtain ⟨s, hs⟩ := hasScope_iff.1 hid
  obtain ⟨s', hs', hgrew⟩ := hext id s hs
  simp only [isBlock, hs, hs', Option.any_some, hgrew.kind_eq]

theorem Extends.functionScope_eq (hext : t'.Extends t) (h : t.WellFormed) (h' : t'.WellFormed)
    (hid : t.hasScope id) : t'.functionScope id = t.functionScope id := by
  have hfind {l : List Nat} (hl : ∀ a ∈ l, t.hasScope a) :
      l.find? (fun a => !t'.isBlock a) = l.find? fun a => !t.isBlock a := by
    induction l with
    | nil => rfl
    | cons a rest ih =>
      obtain ⟨ha, hrest⟩ := forall_mem_cons.1 hl
      rw [find?_cons, find?_cons, hext.isBlock_eq ha, ih hrest]
  simp only [functionScope, hext.ancestors_eq h h' hid]
  rw [hfind fun a ha => h.hasScope_of_mem_ancestors hid ha]

/-- The function around a new scope is the scope itself, or the one around the place it is opened
at. -/
theorem WellFormed.functionScope_le_push (h : t.WellFormed) (hid : t.hasScope id) (kind : ScopeKind)
    (span : Span) : t.functionScope id ≤ (t.push kind id span).functionScope t.scopes.length := by
  have h' := h.push hid kind span
  have hlt : id < t.scopes.length := by simpa [hasScope] using hid
  have hle := h.functionScope_le hid
  have hold : (t.push kind id span).functionScope id = t.functionScope id :=
    extends_push.functionScope_eq h h' hid
  rw [← hold]
  simp only [SymbolTable.functionScope, h.ancestors_push hid, find?_cons,
    extends_push.ancestors_eq h h' hid]
  split
  · rw [← extends_push.ancestors_eq h h' hid]
    change (t.push kind id span).functionScope id ≤ t.scopes.length
    omega
  · exact le_rfl

theorem WellFormed.functionScope_push (h : t.WellFormed) (hid : t.hasScope id) (span : Span) :
    (t.push .function id span).functionScope t.scopes.length = t.scopes.length := by
  have hkind : (t.push .function id span).isBlock t.scopes.length = false := by
    simp [isBlock, SymbolTable.push]
  simp only [SymbolTable.functionScope, h.ancestors_push hid, find?_cons, hkind]
  rfl

/-! ### The scope at an offset -/

/-- Whether the region of a scope touches an offset. -/
def touches (t : SymbolTable) (offset id : Nat) : Bool :=
  t.scopes[id]?.any (·.span.touches offset)

theorem touches_iff :
    t.touches offset id ↔ ∃ s, t.scopes[id]? = some s ∧ s.span.lo ≤ offset ∧ offset ≤ s.span.hi := by
  simp [touches, Option.any_eq_true, Span.touches]

theorem Extends.touches_eq (hext : t'.Extends t) (hid : t.hasScope id) (offset : Nat) :
    t'.touches offset id = t.touches offset id := by
  obtain ⟨s, hs⟩ := hasScope_iff.1 hid
  obtain ⟨s', hs', hgrew⟩ := hext id s hs
  simp only [touches, hs, hs', Option.any_some, hgrew.span_eq]

/-- The last number with some property is found from the end. -/
theorem find?_reverse_range {p : Nat → Bool} {n m : Nat} (hlt : m < n) (hm : p m)
    (hlast : ∀ k, p k → k ≤ m) : (List.range n).reverse.find? p = some m := by
  induction n with
  | zero => exact absurd hlt (Nat.not_lt_zero m)
  | succ n ih =>
    rw [range_succ, reverse_append, reverse_singleton, singleton_append,
      find?_cons]
    cases hn : p n with
    | true =>
      have hle := hlast n hn
      obtain rfl : n = m := by omega
      rfl
    | false =>
      have hne : m ≠ n := by
        rintro rfl
        simp [hn] at hm
      exact ih (by omega)

theorem scopeAt_eq (hid : t.touches offset id) (hlast : ∀ z, t.touches offset z → z ≤ id) :
    t.scopeAt offset = id := by
  obtain ⟨s, hs, -⟩ := touches_iff.1 hid
  obtain ⟨hlt, -⟩ := List.getElem?_eq_some_iff.1 hs
  exact congrArg (Option.getD · root) (find?_reverse_range hlt hid hlast)

/-- If the region of some scope touches an offset, then that of the scope there does, and it is the
last such scope. -/
theorem scopeAt_spec (hid : t.touches offset id) :
    t.touches offset (t.scopeAt offset) ∧ ∀ z, t.touches offset z → z ≤ t.scopeAt offset := by
  have hbound {z : Nat} (hz : t.touches offset z) : z ≤ t.scopes.length := by
    obtain ⟨s, hs, -⟩ := touches_iff.1 hz
    exact Nat.le_of_lt (List.getElem?_eq_some_iff.1 hs).1
  obtain ⟨m, hm, hlast⟩ : ∃ m, t.touches offset m ∧ ∀ z, t.touches offset z → z ≤ m := by
    refine ⟨Nat.findGreatest (fun z => t.touches offset z = true) t.scopes.length, ?_, ?_⟩
    · exact Nat.findGreatest_spec (P := fun z => t.touches offset z = true) (hbound hid) hid
    · exact fun z hz => Nat.le_findGreatest (hbound hz) hz
  rw [scopeAt_eq hm hlast]
  exact ⟨hm, hlast⟩

/-- The scope at an offset stays the same while only scopes are added that do not touch it. -/
theorem Extends.scopeAt_eq (hext : t'.Extends t) (hid : t.touches offset id)
    (hnew : ∀ z, t.scopes.length ≤ z → ¬t'.touches offset z) :
    t'.scopeAt offset = t.scopeAt offset := by
  have hold {z : Nat} (hz : z < t.scopes.length) : t'.touches offset z = t.touches offset z :=
    hext.touches_eq (by simpa [SymbolTable.hasScope] using hz) offset
  obtain ⟨hat, hlast⟩ := scopeAt_spec hid
  obtain ⟨s, hs, -⟩ := touches_iff.1 hat
  obtain ⟨hlt, -⟩ := List.getElem?_eq_some_iff.1 hs
  refine SymbolTable.scopeAt_eq (by rwa [hold hlt]) fun z hz => ?_
  have hz' : z < t.scopes.length := by
    by_contra hge
    exact hnew z (by omega) hz
  exact hlast z (by rwa [← hold hz'])

/-! ### What names stand for -/

/-- The names in a scope, in order. -/
def namesIn (t : SymbolTable) (id : Nat) : List String :=
  (t.scopes[id]?.map (·.symbols.map Symbol.name)).getD []

theorem find?_eq_namesIn (name : String) :
    t.find? id name = ((t.namesIn id).findIdx? (· == name)).map (⟨id, ·⟩) := by
  unfold find? namesIn Scope.indexOf?
  cases t.scopes[id]? with
  | none => rfl
  | some s => simp [findIdx?_map, Function.comp_def]

/-- A new scope has no names. -/
theorem namesIn_push (kind : ScopeKind) (u : Nat) (span : Span) (z : Nat) :
    (t.push kind u span).namesIn z = t.namesIn z := by
  unfold namesIn push
  rw [getElem?_append]
  split
  · rfl
  · next hz =>
    rw [getElem?_eq_none (Nat.le_of_not_lt hz)]
    cases z - t.scopes.length with
    | zero => rfl
    | succ n => rfl

/-- The symbol found under a name has that name. -/
theorem name_of_find? (h : t.find? id name = some x) :
    ∃ symbol, t.symbol? x = some symbol ∧ symbol.name = name := by
  obtain ⟨i, hi, rfl⟩ := Option.map_eq_some_iff.1 h
  obtain ⟨s, hs, hfind⟩ := Option.bind_eq_some_iff.1 hi
  obtain ⟨hlt, hname, -⟩ := findIdx?_eq_some_iff_getElem.1 hfind
  refine ⟨s.symbols[i], ?_, by simpa using hname⟩
  simp [symbol?, hs, hlt]

theorem scope_of_find? (h : t.find? id name = some x) : x.scope = id := by
  obtain ⟨i, -, rfl⟩ := Option.map_eq_some_iff.1 h
  rfl

/-- A name stands for a symbol with that name, in a scope around the place. -/
theorem lookup_spec (h : t.lookup name id = some x) :
    x.scope ∈ t.ancestors id ∧ ∃ symbol, t.symbol? x = some symbol ∧ symbol.name = name := by
  obtain ⟨z, hz, hfind⟩ := exists_of_findSome?_eq_some h
  exact ⟨scope_of_find? hfind ▸ hz, name_of_find? hfind⟩

/-- A symbol keeps its name while the table grows. -/
theorem Extends.symbol?_name (hext : t'.Extends t) (h : t.symbol? x = some symbol) :
    ∃ symbol', t'.symbol? x = some symbol' ∧ symbol'.name = symbol.name := by
  obtain ⟨s, hs, hi⟩ := Option.bind_eq_some_iff.1 h
  obtain ⟨s', hs', hgrew⟩ := hext x.scope s hs
  have hname : (s'.symbols.map Symbol.name)[x.index]? = some symbol.name := by
    obtain ⟨rest, hrest⟩ := hgrew.names
    obtain ⟨hlt, -⟩ := List.getElem?_eq_some_iff.1 hi
    rw [← hrest, getElem?_append_left (by simpa using hlt), getElem?_map, hi]
    rfl
  obtain ⟨symbol', hi', hname'⟩ := Option.map_eq_some_iff.1 (getElem?_map .. ▸ hname)
  exact ⟨symbol', by simp [symbol?, hs', hi'], hname'⟩

/-- What a name stands for depends on the names in the scopes around the place. -/
theorem lookup_congr (hancestors : t'.ancestors id = t.ancestors id)
    (hnames : ∀ z ∈ t.ancestors id, t'.namesIn z = t.namesIn z) (name : String) :
    t'.lookup name id = t.lookup name id := by
  have hfind {l : List Nat} (hl : ∀ z ∈ l, t'.namesIn z = t.namesIn z) :
      l.findSome? (t'.find? · name) = l.findSome? (t.find? · name) := by
    induction l with
    | nil => rfl
    | cons z rest ih =>
      obtain ⟨hz, hrest⟩ := forall_mem_cons.1 hl
      rw [findSome?_cons, findSome?_cons, find?_eq_namesIn, find?_eq_namesIn, hz,
        ih hrest]
  rw [lookup, lookup, hancestors, hfind hnames]

/-- What stands for a symbol in a scope still stands for it later. -/
def Steadfast (t t' : SymbolTable) (id : Nat) : Prop :=
  ∀ name x, t.lookup name id = some x → t'.lookup name id = some x

theorem Steadfast.refl (t : SymbolTable) (id : Nat) : t.Steadfast t id := fun _ _ h => h

theorem Steadfast.trans {t'' : SymbolTable} (h : t.Steadfast t' id) (h' : t'.Steadfast t'' id) :
    t.Steadfast t'' id :=
  fun name x hx => h' name x (h name x hx)

theorem steadfast_of_lookup_eq (h : ∀ name, t'.lookup name id = t.lookup name id) :
    t.Steadfast t' id :=
  fun name _ hx => (h name).trans hx

theorem wellFormed_add (h : t.WellFormed) (z : Nat) (symbol : Symbol) :
    (t.add z symbol).WellFormed :=
  h.of_extends extends_add (length_modify ..)

theorem namesIn_add (z : Nat) (symbol : Symbol) (hne : a ≠ z) :
    (t.add z symbol).namesIn a = t.namesIn a := by
  simp [namesIn, add, Ne.symm hne]

theorem wellFormed_modifySymbol (h : t.WellFormed) (x : SymbolId)
    (hf : ∀ symbol, (f symbol).name = symbol.name) : (t.modifySymbol x f).WellFormed :=
  h.of_extends (extends_modifySymbol hf) (length_modify ..)

/-- A change of a symbol other than to its name does not change the names in a scope. -/
theorem namesIn_modifySymbol (hf : ∀ symbol, (f symbol).name = symbol.name) (x : SymbolId)
    (z : Nat) :
    (t.modifySymbol x f).namesIn z = t.namesIn z := by
  cases hs : t.scopes[z]? with
  | none => simp [namesIn, modifySymbol, getElem?_modify, hs]
  | some s =>
    obtain ⟨s', hs', hgrew⟩ := extends_modifySymbol (x := x) hf z s hs
    have hlength : s'.symbols.length = s.symbols.length := by
      rw [modifySymbol, getElem?_modify, hs] at hs'
      rw [← Option.some.inj hs']
      dsimp only
      split <;> simp
    simp only [namesIn, hs, hs', Option.map_some, Option.getD_some]
    exact (hgrew.names.eq_of_length (by simp [hlength])).symm

/-- A symbol with another name does not change what is found. -/
theorem find?_add (hne : symbol.name ≠ name) (z : Nat) :
    (t.add z symbol).find? a name = t.find? a name := by
  by_cases ha : a = z
  · subst ha
    simp only [find?, add, getElem?_modify_eq]
    cases t.scopes[a]? with
    | none => rfl
    | some s =>
      have hindex : Scope.indexOf? { s with symbols := s.symbols ++ [symbol] } name =
          s.indexOf? name := by
        simp [Scope.indexOf?, findIdx?_append, hne]
      simp [hindex]
  · rw [find?_eq_namesIn, find?_eq_namesIn, namesIn_add z symbol ha]

section

variable (h : t.WellFormed) (hid : t.hasScope id)
include h hid

theorem steadfast_modifySymbol (x : SymbolId) (hf : ∀ symbol, (f symbol).name = symbol.name) :
    t.Steadfast (t.modifySymbol x f) id := by
  refine steadfast_of_lookup_eq (lookup_congr ?_ fun z _ => namesIn_modifySymbol hf x z)
  exact (extends_modifySymbol hf).ancestors_eq h (wellFormed_modifySymbol h x hf) hid

theorem steadfast_addReference (span : Span) (x : SymbolId) :
    t.Steadfast (t.addReference span x) id :=
  steadfast_of_lookup_eq (lookup_congr
    (extends_addReference.ancestors_eq h (h.of_extends extends_addReference rfl) hid) fun _ _ => rfl)

/-- Declaring a name that stands for nothing does not change what the others stand for. -/
theorem steadfast_add (hnone : t.lookup symbol.name id = none) (z : Nat) :
    t.Steadfast (t.add z symbol) id := by
  intro name x hx
  have hne : symbol.name ≠ name := by
    rintro rfl
    simp [hnone] at hx
  rw [lookup, extends_add.ancestors_eq h (wellFormed_add h z symbol) hid, ← hx, lookup]
  simp only [find?_add hne]

theorem steadfast_declare (hnone : t.lookup symbol.name id = none) (z : Nat) :
    t.Steadfast (t.declare z symbol).2.2 id := by
  rw [declare]
  split
  · exact .refl t id
  · exact steadfast_add h hid hnone z

end

end SymbolTable

end ScriptCheck
