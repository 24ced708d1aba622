import ScriptCheck.Proofs.LayoutProgram
import ScriptCheck.Proofs.Resolution
import ScriptCheck.Report.Check

/-!
# Definitions and uses in a script

After a script was checked, every symbol and every use has its name as the text of its region, and
what is used or declared at an offset is unambiguous (`definite_check`).

The symbol of a use is declared in the scope at the use or in one around it, unless it is declared
in a function that stands in a head: the subject of a `switch` whose cases declare something, or the
values of a `for` loop that declares its names (`shows_check_iff`). The scope of such a statement
spans its head, but what stands in the head is not in it.
-/

namespace ScriptCheck

open List

open Text

variable {source : List Char}

/-! ### Words -/

theorem Ident.IsWord.text? {x : Ident} (h : x.IsWord source) :
    x.span.text? source = some x.name.toList := by
  obtain ⟨before, after, hsource, hlo, hlen, -⟩ := h
  exact slice?_eq_some_iff.2 ⟨before, after, hsource, hlo, by rw [hlen]; rfl⟩

/-- Between two words that follow each other there is a character. -/
theorem Ident.IsWord.hi_ne_lo {x y : Ident} (hx : x.IsWord source) (hy : y.IsWord source) :
    x.span.hi ≠ y.span.lo := by
  intro heq
  obtain ⟨before, after, hsource, hlo, hlen, -, hafter⟩ := hx
  obtain ⟨before', after', hsource', hlo', -, hstarts, -⟩ := hy
  have hbytes : bytes (before ++ x.name.toList) = bytes before' := by
    rw [bytes_append, hlo, hlen, hlo', ← heq, Span.hi]
  have hcut := cut?_bytes_append (before ++ x.name.toList) after
  rw [append_assoc, ← hsource, hbytes, hsource', cut?_bytes_append] at hcut
  obtain ⟨-, hrest⟩ := Prod.mk.inj (Option.some.inj hcut)
  rw [← hrest] at hafter
  cases hname : y.name.toList with
  | nil =>
    rw [hname] at hstarts
    exact absurd hstarts Bool.false_ne_true
  | cons c cs =>
    rw [hname] at hstarts hafter
    exact absurd (hstarts.symm.trans hafter) Bool.true_eq_false.mp

theorem Node.eq_of_holds_name {x y : Ident} (h : (Node.name x).Holds (.name y)) : y = x := by
  rcases Node.holds_iff.1 h with heq | ⟨c, hc, -⟩
  · exact Node.name.inj heq
  · exact absurd hc not_mem_nil

/-- Names of a tree that touch the same offset are the same. -/
theorem Node.eq_of_touches {tree : Node} (hlaid : tree.All (Laid source)) {x y : Ident}
    (hx : tree.Holds (.name x)) (hy : tree.Holds (.name y)) {offset : Nat}
    (hx' : x.span.touches offset) (hy' : y.span.touches offset) : x = y := by
  have hxword := (hlaid _ hx).word x rfl
  have hyword := (hlaid _ hy).word y rfl
  have hpos {z : Ident} (hz : z.IsWord source) : 0 < (Node.name z).span.len := by
    have hlt := hz.lo_lt_hi
    rw [Span.hi] at hlt
    exact Nat.pos_of_lt_add_right hlt
  simp only [Span.touches, Bool.and_eq_true, decide_eq_true_eq] at hx' hy'
  rcases Node.apart_or_holds hlaid hx hy (hpos hxword) (hpos hyword) with
    hbefore | hbefore | hholds | hholds
  · have hle : x.span.hi ≤ y.span.lo := hbefore
    exact absurd (Nat.le_antisymm hle (hy'.1.trans hx'.2)) (hxword.hi_ne_lo hyword)
  · have hle : y.span.hi ≤ x.span.lo := hbefore
    exact absurd (Nat.le_antisymm hle (hx'.1.trans hy'.2)) (hyword.hi_ne_lo hxword)
  · exact (Node.eq_of_holds_name hholds).symm
  · exact Node.eq_of_holds_name hholds

/-! ### Visiting a program -/

/-- The statements of a program are in order in its region. -/
theorem Program.inOrder_region {p : Program} {b : Nat}
    (ho : InOrder 0 b (p.body.map Stmt.span)) :
    InOrder 0 (Analysis.region p).hi (p.body.map Stmt.span) := by
  rw [Analysis.region, Span.hi_between, Nat.zero_max]
  cases hlast : p.body.getLast? with
  | none =>
    rw [getLast?_eq_none_iff.1 hlast]
    exact Nat.zero_le _
  | some last =>
    obtain ⟨init, hinit⟩ := getLast?_eq_some_iff.1 hlast
    rw [hinit, map_append] at ho ⊢
    exact ho.upTo_last.2.2.2

/-- A program is ready to be visited. -/
theorem SymbolTable.ready_empty (tree : Node) (span : Span) (hlo : span.lo = 0) :
    Ready tree (empty span) root 0 span.hi := by
  have hscopes {id : Nat} {s : Scope} (hs : (empty span).scopes[id]? = some s) :
      id = root ∧ s = ⟨.global, none, span, []⟩ := by
    cases id with
    | zero => exact ⟨rfl, (Option.some.inj hs).symm⟩
    | succ id => exact absurd hs nofun
  have hwf := wellFormed_empty span
  refine ⟨⟨hwf, ?_, nofun, nofun⟩, rfl, ?_, span, rfl, Nat.le_of_eq hlo, le_rfl⟩
  · intro id p s hs hp
    obtain ⟨-, rfl⟩ := hscopes hs
    exact absurd hp nofun
  · intro z hz _
    obtain ⟨s, hs⟩ := hasScope_iff.1 hz
    obtain ⟨rfl, -⟩ := hscopes hs
    exact hwf.mem_ancestors_self hz

/-- The effect of visiting all of a program. -/
theorem effect_check (mode : LexMode) (passes : PassSet) (fileExists : String → Bool)
    (source : List Char) :
    SymbolTable.Effect ((parse mode source).program.root source) SymbolTable.root 0
      (Analysis.region (parse mode source).program).hi
      (HeadIn ((parse mode source).program.body.map .stmt))
      (.empty (Analysis.region (parse mode source).program))
      (check mode passes fileExists source).table := by
  have hlaid := laid_parse mode source
  have ho := Program.inOrder_region (Walk.map_span_stmt _ ▸ hlaid.self.inOrder)
  rw [← Walk.map_span_stmt] at ho
  have hbody : Row ((parse mode source).program.root source) 0 _
      ((parse mode source).program.body.map .stmt) := ⟨fun _ hn => Node.holds_of_mem hn, ho⟩
  let outermost := Analysis.outermost passes fileExists
  have hvisit := Walk.visits_sequence hbody.of_mem (Nat.zero_le _) fun flow =>
    Walk.visits_stmts hlaid outermost _ flow hbody
  exact (hvisit (.initial (Analysis.region (parse mode source).program))
    (SymbolTable.ready_empty _ _ rfl)).1

/-! ### Definitions -/

/-- In a table for a script, symbols and uses have the text of their name. At every offset at most
one name is used or declared, and it is found there. -/
structure SymbolTable.Definite (source : List Char) (t : SymbolTable) : Prop where
  symbol_text : ∀ symbol ∈ t.symbols, symbol.span.text? source = some symbol.name.toList
  reference_text : ∀ r ∈ t.references, ∃ symbol, t.symbol? r.symbol = some symbol ∧
    r.span.text? source = some symbol.name.toList
  reference_unique : ∀ offset, ∀ r ∈ t.references, ∀ r' ∈ t.references,
    r.span.touches offset → r'.span.touches offset → r.span = r'.span ∧ r.symbol = r'.symbol
  /-- What is used at an offset is what is found there. -/
  definitionAt_use : ∀ offset, ∀ r ∈ t.references, r.span.touches offset →
    t.referenceAt offset = some r ∧ t.definitionAt offset = t.symbol? r.symbol
  /-- What is declared at an offset and not used is what is found there, by name and region. -/
  definitionAt_declaration : ∀ offset, ∀ symbol ∈ t.symbols, symbol.span.touches offset →
    (∀ r ∈ t.references, ¬r.span.touches offset) →
    ∃ found, t.definitionAt offset = some found ∧ found.name = symbol.name ∧
      found.span = symbol.span

/-- What is found at an offset after checking a script is unambiguous. -/
theorem definite_check (mode : LexMode) (passes : PassSet) (fileExists : String → Bool)
    (source : List Char) : (check mode passes fileExists source).table.Definite source := by
  have hlaid := laid_parse mode source
  have heffect := effect_check mode passes fileExists source
  generalize (check mode passes fileExists source).table = t at heffect ⊢
  -- names that touch the same offset are the same
  have hunique : ∀ offset, ∀ r ∈ t.references, ∀ r' ∈ t.references,
      r.span.touches offset → r'.span.touches offset → r = r' := by
    intro offset r hr r' hr' htouches htouches'
    obtain ⟨x, -, hx, hspan, -⟩ := heffect.sourced.references r hr
    obtain ⟨y, -, hy, hspan', -⟩ := heffect.sourced.references r' hr'
    rw [hspan] at htouches
    rw [hspan'] at htouches'
    obtain rfl := Node.eq_of_touches hlaid hx hy htouches htouches'
    exact heffect.unique r hr r' hr' (hspan.trans hspan'.symm)
  have hreferenceAt : ∀ offset, ∀ r ∈ t.references, r.span.touches offset →
      t.referenceAt offset = some r := by
    intro offset r hr htouches
    cases hfound : t.referenceAt offset with
    | none => exact absurd htouches (List.find?_eq_none.1 hfound r hr)
    | some r' =>
      have htouches' := List.find?_some hfound
      rw [hunique offset r hr r' (List.mem_of_find?_eq_some hfound) htouches htouches']
  constructor
  · intro symbol hsymbol
    obtain ⟨x, hx, hname, hspan⟩ := heffect.sourced.symbols symbol hsymbol
    rw [hname, hspan]
    exact ((hlaid _ hx).word x rfl).text?
  · intro r hr
    obtain ⟨x, symbol, hx, hspan, hsymbol, hname⟩ := heffect.sourced.references r hr
    refine ⟨symbol, hsymbol, ?_⟩
    rw [hname, hspan]
    exact ((hlaid _ hx).word x rfl).text?
  · intro offset r hr r' hr' htouches htouches'
    obtain rfl := hunique offset r hr r' hr' htouches htouches'
    exact ⟨rfl, rfl⟩
  · intro offset r hr htouches
    have hfound := hreferenceAt offset r hr htouches
    exact ⟨hfound, by rw [SymbolTable.definitionAt, hfound]⟩
  · intro offset symbol hsymbol htouches hnone
    have hreference : t.referenceAt offset = none :=
      List.find?_eq_none.2 fun r hr => by simpa using hnone r hr
    rw [SymbolTable.definitionAt, hreference]
    cases hfound : t.symbols.find? (·.span.touches offset) with
    | none => exact absurd htouches (List.find?_eq_none.1 hfound symbol hsymbol)
    | some found =>
      obtain ⟨x, hx, hname, hspan⟩ := heffect.sourced.symbols symbol hsymbol
      obtain ⟨y, hy, hname', hspan'⟩ :=
        heffect.sourced.symbols found (List.mem_of_find?_eq_some hfound)
      have htouches' := List.find?_some hfound
      rw [hspan] at htouches
      rw [hspan'] at htouches'
      obtain rfl := Node.eq_of_touches hlaid hx hy htouches htouches'
      exact ⟨found, rfl, hname'.trans hname.symm, hspan'.trans hspan.symm⟩

/-! ### Scopes at uses -/

/-- A region is a head of a program. -/
def Program.HasHead (p : Program) (head : Span) : Prop := ∃ n, p.Holds n ∧ n.head? = some head

theorem Program.hasHead_iff {p : Program} {head : Span} :
    p.HasHead head ↔ HeadIn (p.body.map .stmt) head := by
  simp only [HasHead, Program.Holds, HeadIn, mem_map]
  constructor
  · rintro ⟨n, ⟨s, hs, hn⟩, hhead⟩
    exact ⟨_, ⟨s, hs, rfl⟩, n, hn, hhead⟩
  · rintro ⟨_, ⟨s, hs, rfl⟩, n, hn, hhead⟩
    exact ⟨n, ⟨s, hs, hn⟩, hhead⟩

/-- After checking a script, the symbol of a use is declared in the scope at the use or in one around
it exactly if no head of the program encloses the scope in which it is declared. The scope at a use
and those around it all touch the use. -/
theorem shows_check_iff (mode : LexMode) (passes : PassSet) (fileExists : String → Bool)
    (source : List Char) (r : Reference)
    (hr : r ∈ (check mode passes fileExists source).table.references) :
    (r.symbol.scope ∈ (check mode passes fileExists source).table.ancestors
        ((check mode passes fileExists source).table.scopeAt r.span.lo) ↔
      ¬∃ head, (check mode passes fileExists source).program.HasHead head ∧
        (check mode passes fileExists source).table.Covers head r) ∧
    ∀ z ∈ (check mode passes fileExists source).table.ancestors
        ((check mode passes fileExists source).table.scopeAt r.span.lo),
      (check mode passes fileExists source).table.touches r.span.lo z := by
  have heffect := effect_check mode passes fileExists source
  have hrecorded := heffect.recorded r hr
  have hready := heffect.ready (SymbolTable.ready_empty _ _ rfl)
  constructor
  · refine hrecorded.shows.trans ?_
    simp only [not_exists, not_and, Program.hasHead_iff]
    rfl
  · intro z hz
    obtain ⟨hlo, hlt, hhi⟩ := hrecorded.region
    obtain ⟨hat, -⟩ := SymbolTable.scopeAt_spec (hready.touches hlo (by omega))
    obtain ⟨span, hspan, hlo', hhi'⟩ := SymbolTable.span?_of_touches hat
    obtain ⟨outer, houter, henc⟩ := heffect.sourced.encloses hspan hz
    exact SymbolTable.touches_of_span? houter (Nat.le_trans henc.1 hlo') (Nat.le_trans hhi' henc.2)

/-- A parameter is used in its function, which is not in a head. -/
theorem not_covered_parameter :
    ¬∃ head,
      (check .normal .all (fun _ => false)
        "function f(a) { return a; }".toList).program.HasHead head ∧
      (check .normal .all (fun _ => false)
        "function f(a) { return a; }".toList).table.Covers head ⟨⟨23, 1⟩, ⟨1, 0⟩⟩ :=
  (shows_check_iff .normal .all (fun _ => false) "function f(a) { return a; }".toList
    ⟨⟨23, 1⟩, ⟨1, 0⟩⟩ (by decide +kernel)).1.1 (by decide +kernel)

/-- A parameter of a function in the subject of a `switch` is used in the function, but not declared
around the scope at the use. -/
theorem not_shows_switch_subject :
    ¬∀ r ∈ (check .normal .all (fun _ => false)
        "switch ((x => x)(1)) { case 1: let y = 1; }".toList).table.references,
      r.symbol.scope ∈ (check .normal .all (fun _ => false)
        "switch ((x => x)(1)) { case 1: let y = 1; }".toList).table.ancestors
        ((check .normal .all (fun _ => false)
          "switch ((x => x)(1)) { case 1: let y = 1; }".toList).table.scopeAt r.span.lo) := by
  decide +kernel

end ScriptCheck
