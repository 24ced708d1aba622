import ScriptCheck.Proofs.Ledger
import ScriptCheck.Proofs.ReadProgram

/-!
# Recorded types

A symbol records the types that it is given: by a declaration, the values of a loop or an
assignment. What it records at the end has all alternatives of each type that it was given, or is
not known (`Analysis.type_covers_given`). The exception is a function: where its declaration is
reached, its type replaces what was recorded before.
-/

namespace ScriptCheck

open List

namespace Walk

/-! ### Types that are given and replaced -/

/-- What happens to the recorded type of a symbol. -/
inductive Typing where
  /-- The symbol is given a type, next to those that it has. -/
  | given (id : SymbolId) (type : Ty)
  /-- The type of a function takes the place of what was recorded. -/
  | replaced (id : SymbolId)
  deriving DecidableEq

/-- What a deed does to the recorded type of a symbol. -/
def Deed.typing? (d : Deed) : Option Typing :=
  match d.act with
  | .recordFunction name _ =>
    (d.before.table.lookup name.name d.place.scope).bind fun id =>
      if (d.before.table.symbol? id).any (·.kind == .function) then some (.replaced id) else none
  | act => (act.gives d.place.scope d.before.table).map fun g => .given g.1 g.2

variable {passes : PassSet} {d : Deed} {id : SymbolId} {type : Ty} {x : Symbol}

/-- A deed that gives a symbol a type records it. -/
theorem Deed.covers_given (hfits : d.Fits passes) (hneeds : d.act.Needs d.place.scope d.before.table)
    (h : d.typing? = some (.given id type)) :
    ∃ x, d.after.table.symbol? id = some x ∧ x.type.Covers type := by
  rw [d.did.table]
  obtain ⟨ctx, act, s⟩ := d
  have hcanonical := hfits.before.table
  have hact := hfits.act
  cases act with
  | assign name new =>
    cases hfound : s.table.lookup name.name ctx.scope with
    | some y =>
      by_cases hconst : (s.table.symbol? y).any (·.kind == .constVar)
      · simp [Deed.typing?, Act.gives, hfound, hconst] at h
      · obtain ⟨rfl, rfl⟩ : y = id ∧ new = type := by
          simpa [Deed.typing?, Act.gives, hfound, hconst] using h
        obtain ⟨x, hx⟩ := Option.isSome_iff_exists.mp (SymbolTable.hasSymbol_of_lookup hfound)
        have hkind : x.kind ≠ .constVar := by simpa [hx] using hconst
        refine ⟨_, Act.symbol?_tableAfter _ hx, ?_⟩
        simp only [Act.revised, hfound, hkind, ne_eq, not_false_eq_true, and_self, if_true]
        exact Ty.join_covers_right (hcanonical y x hx) hact
    | none =>
      obtain ⟨hscope, hnew⟩ :=
        SymbolTable.declare_functionScope_new (implicitSymbol name new) hneeds hfound
      obtain ⟨rfl, rfl⟩ : _ = id ∧ new = type := by
        simpa [Deed.typing?, Act.gives, hfound] using h
      have hafter := SymbolTable.symbol?_declare_new hscope hnew
      refine ⟨implicitSymbol name new, ?_, .refl _⟩
      simpa only [Act.tableAfter, hfound] using hafter
  | declare name kind new =>
    by_cases hnew : (s.table.declare ctx.scope (.declared name.name kind new name.span)).2.1
    · obtain ⟨rfl, rfl⟩ : _ = id ∧ new = type := by
        simpa [Deed.typing?, Act.gives, hnew] using h
      exact ⟨_, SymbolTable.symbol?_declare_new hneeds hnew, .refl _⟩
    · simp [Deed.typing?, Act.gives, hnew] at h
  | declareImport source name specifier new =>
    by_cases hnew : (s.table.declare ctx.scope (.declared name.name .imported new name.span)).2.1
    · obtain ⟨rfl, rfl⟩ : _ = id ∧ new = type := by
        simpa [Deed.typing?, Act.gives, hnew] using h
      have hafter := SymbolTable.symbol?_declare_new hneeds hnew
      refine ⟨{ Symbol.declared name.name .imported new name.span with
        specifier := specifier, source := some source }, ?_, .refl _⟩
      simp [Act.tableAfter, hnew, SymbolTable.symbol?_modifySymbol, hafter]
    · simp [Deed.typing?, Act.gives, hnew] at h
  | recordFunction name new =>
    obtain ⟨y, -, hy⟩ := Option.bind_eq_some_iff.mp h
    split at hy <;> cases hy
  | read name | countExported name | openScope kind span => cases h

/-- A deed that does not replace the type of a symbol only adds to it. -/
theorem Deed.covers_kept (hfits : d.Fits passes) (hx : d.before.table.symbol? id = some x)
    (h : d.typing? ≠ some (.replaced id)) :
    ∃ y, d.after.table.symbol? id = some y ∧ y.kind = x.kind ∧ y.type.Covers x.type := by
  rw [d.did.table]
  refine ⟨_, d.act.symbol?_tableAfter hx, d.act.kind_revised, ?_⟩
  obtain ⟨ctx, act, s⟩ := d
  have hact := hfits.act
  cases act with
  | read name | countExported name =>
    simp only [Act.revised]
    split <;> exact .refl _
  | assign name new =>
    simp only [Act.revised]
    split
    · exact Ty.join_covers_left (hfits.before.table id x hx) hact
    · exact .refl _
  | recordFunction name new =>
    simp only [Act.revised]
    split
    · next hfound => simp [Deed.typing?, hfound.1, hx, hfound.2] at h
    · exact .refl _
  | declare name kind new | declareImport source name specifier new | openScope kind span =>
    exact .refl _

/-- Only the type of a function is replaced. -/
theorem Deed.kind_of_replaced (h : d.typing? = some (.replaced id))
    (hx : d.before.table.symbol? id = some x) : x.kind = .function := by
  obtain ⟨ctx, act, s⟩ := d
  cases act with
  | recordFunction name new =>
    obtain ⟨y, -, hy⟩ := Option.bind_eq_some_iff.mp h
    split at hy
    · next hkind =>
      cases hy
      simpa [hx] using hkind
    · cases hy
  | assign name new | declare name kind new | declareImport source name specifier new =>
    obtain ⟨g, -, hg⟩ := Option.map_eq_some_iff.mp h
    cases hg
  | read name | countExported name | openScope kind span => cases h

namespace Chain

variable {s t : State} {ds : List Deed}

/-- A symbol keeps its kind along a chain, and what it records unless that is replaced. -/
theorem covers_kept (h : Chain passes s ds t) (ht : t.table.Canonical)
    (hx : s.table.symbol? id = some x) :
    ∃ y, t.table.symbol? id = some y ∧ y.kind = x.kind ∧
      ((x.kind = .function → .replaced id ∉ ds.filterMap Deed.typing?) →
        y.type.Covers x.type) := by
  induction ds generalizing s x with
  | nil => exact ⟨x, h.table ▸ hx, rfl, fun _ => .refl _⟩
  | cons d ds ih =>
    have hbefore : d.before.table.symbol? id = some x := h.2.1.table ▸ hx
    by_cases hreplaced : d.typing? = some (.replaced id)
    · have hafter : d.after.table.symbol? id = _ :=
        d.did.table ▸ d.act.symbol?_tableAfter hbefore
      obtain ⟨y, hy, hkind, -⟩ := ih h.2.2 hafter
      refine ⟨y, hy, hkind.trans d.act.kind_revised, fun hkept => ?_⟩
      refine absurd ?_ (hkept (Deed.kind_of_replaced hreplaced hbefore))
      exact mem_filterMap.mpr ⟨d, mem_cons_self, hreplaced⟩
    · obtain ⟨z, hz, hkind, hcovers⟩ := Deed.covers_kept h.1 hbefore hreplaced
      obtain ⟨y, hy, hkind', hcovers'⟩ := ih h.2.2 hz
      refine ⟨y, hy, hkind'.trans hkind, fun hkept => ?_⟩
      refine .trans (ht id y hy) (hcovers' fun hfunction hmem => ?_) hcovers
      refine hkept (hkind.symm.trans hfunction) ?_
      rw [filterMap_cons]
      split
      · exact hmem
      · exact mem_cons_of_mem _ hmem

/-- In a sound state all scopes were there in which something was declared. -/
theorem needs_of_sound (h : Chain passes s ds t) (ht : t.sound = true) :
    s.sound = true ∧ ∀ d ∈ ds, d.act.Needs d.place.scope d.before.table := by
  induction ds generalizing s with
  | nil => exact ⟨h.sound ht, forall_mem_nil _⟩
  | cons d ds ih =>
    obtain ⟨hafter, hneeds⟩ := ih h.2.2
    obtain ⟨hbefore, hd⟩ := d.did.sound hafter
    exact ⟨h.2.1.sound hbefore, forall_mem_cons.mpr ⟨hd, hneeds⟩⟩

/-- What a symbol is given somewhere on a chain is recorded at its end, unless it is replaced. -/
theorem covers_given (h : Chain passes s ds t) (ht : t.table.Canonical) (hsound : t.sound = true)
    {earlier later : List Typing}
    (htypings : ds.filterMap Deed.typing? = earlier ++ .given id type :: later) :
    ∃ x, t.table.symbol? id = some x ∧
      ((x.kind = .function → .replaced id ∉ later) → x.type.Covers type) := by
  obtain ⟨first, rest, rfl, -, hrest⟩ := filterMap_eq_append_iff.mp htypings
  obtain ⟨skipped, d, last, rfl, -, hd, hlast⟩ := filterMap_eq_cons_iff.mp hrest
  have hneeds := (h.needs_of_sound hsound).2 d (by simp)
  rw [← append_assoc] at h
  obtain ⟨u, hfits, -, hchain⟩ := h.of_append
  obtain ⟨x, hx, hcovers⟩ := Deed.covers_given hfits hneeds hd
  obtain ⟨y, hy, hkind, hkept⟩ := hchain.covers_kept ht hx
  rw [hlast] at hkept
  exact ⟨y, hy, fun hlater => .trans (ht id y hy) (hkept (hkind ▸ hlater)) hcovers⟩

end Chain

end Walk

namespace Analysis

open Text Walk

/-- What happens to the recorded types of symbols, in the order of the visit. -/
def typings (passes : PassSet) (fileExists : String → Bool) (program : Program) : List Typing :=
  (trail passes fileExists program).deeds.filterMap Deed.typing?

/-- At the end a symbol records each type that it was given, unless it is a function that was
declared later. -/
theorem type_covers_given (mode : LexMode) (passes : PassSet) (fileExists : String → Bool)
    (source : List Char) (hsize : bytes source ≤ Span.maxLength) (id : SymbolId) (type : Ty)
    (earlier later : List Typing)
    (htypings : typings passes fileExists (parse mode source).program =
      earlier ++ .given id type :: later) :
    ∃ symbol, (ofProgram passes fileExists (parse mode source).program).table.symbol? id =
        some symbol ∧
      ((symbol.kind = .function → .replaced id ∉ later) → symbol.type.Covers type) := by
  have hregions : stmtsRegions (upTo (bytes source)) (parse mode source).program.body :=
    (Parser.got_readScript mode source).value
  have hsound := sound_visited hsize hregions passes fileExists
  have hfollows := follows_trail passes fileExists (parse mode source).program
  exact hfollows.leads.chain.covers_given hfollows.canonical.table hsound.sound htypings

theorem type_covers_given_in_branch :
    bytes "let x = 1; if (x) x = 'a';".toList ≤ Span.maxLength ∧
      typings .all (fun _ => false) (parse .normal "let x = 1; if (x) x = 'a';".toList).program =
        [] ++ .given ⟨0, 0⟩ .integer :: [.given ⟨0, 0⟩ .string] ∧
      ∃ symbol, (ofProgram .all (fun _ => false)
          (parse .normal "let x = 1; if (x) x = 'a';".toList).program).table.symbol? ⟨0, 0⟩ =
          some symbol ∧
        ((symbol.kind = .function → .replaced ⟨0, 0⟩ ∉ [Typing.given ⟨0, 0⟩ .string]) →
          symbol.type.Covers .integer) :=
  ⟨by decide +kernel, by decide +kernel,
    type_covers_given .normal .all (fun _ => false) _ (by decide +kernel) ⟨0, 0⟩ .integer [] _
      (by decide +kernel)⟩

/-- A function that is assigned to before its declaration is reached. -/
theorem not_covers_replaced :
    typings .all (fun _ => false) (parse .normal "f = 1; function f() \x7b\x7d".toList).program =
        [.given ⟨0, 0⟩ (.function [] .unknown), .given ⟨0, 0⟩ .integer, .replaced ⟨0, 0⟩] ∧
      ((ofProgram .all (fun _ => false)
        (parse .normal "f = 1; function f() \x7b\x7d".toList).program).table.symbol? ⟨0, 0⟩).map
          Symbol.type = some (.function [] .null) ∧
      ¬(Ty.function [] .null).Covers .integer := by
  decide +kernel

end Analysis

end ScriptCheck
