import ScriptCheck.Proofs.ReadProgram

/-!
# The layout of programs

A script is read over the nodes of its tree, so all nodes of a program are laid out in the script,
whatever its faults (`nested_parse`).
-/

namespace ScriptCheck

open List

open Text

variable {source : List Char}

/-- A program as a node, whose region is the whole script. -/
def Program.root (source : List Char) (p : Program) : Node :=
  .stmt (.block ⟨0, bytes source⟩ p.body)

theorem Program.holds_root {p : Program} {n : Node} (h : p.Holds n) : (p.root source).Holds n := by
  obtain ⟨s, hs, hn⟩ := h
  exact (Node.holds_of_mem (mem_map_of_mem hs)).trans hn

/-- All nodes of a program are laid out. -/
theorem laid_parse (mode : LexMode) (source : List Char) :
    ((parse mode source).program.root source).All (Node.Laid source) := by
  have hpass := Parser.passes_readScript mode source
  refine Node.all_iff.2 ⟨⟨?_, ?_, nofun, trivial⟩, hpass.laid⟩
  · have htext : (⟨0, bytes source⟩ : Span).text? source = some source :=
      slice?_eq_some_iff.2 ⟨[], [], by simp, rfl, rfl⟩
    exact Option.isSome_iff_exists.2 ⟨_, htext⟩
  · refine (hpass.inOrder.mono_left (Nat.zero_le _)).upTo (Nat.zero_le _) fun span hspan => ?_
    obtain ⟨n, hn, rfl⟩ := mem_map.1 hspan
    calc n.span.hi ≤ (Parser.readScript mode source).2.reach := hpass.hi_le n hn
      _ ≤ (Parser.readScript mode source).2.eof.lo := hpass.onward.fine.ordered.le
      _ = 0 + bytes source := by
        rw [hpass.onward.eof_eq]
        exact (Parser.le_lo_ofTokens ⟨0, source⟩ mode).2

/-- A node is nested in a script: its region lies in the script and between characters, and the
regions of the nodes directly below it lie in it, one after the other. The only nodes left out are
parts of a template that stand for an interpolation which could not be read. -/
structure Node.Nested (source : List Char) (n : Node) : Prop where
  text : (n.span.text? source).isSome
  inOrder : InOrder n.span.lo n.span.hi ((n.standing (bytes source)).map Node.span)
  leftOut : ∀ c ∈ n.parts, c ∉ n.standing (bytes source) →
    (∃ span parts, n = .expr (.template span parts)) ∧ c = .expr (.invalid ⟨bytes source, 0⟩)

/-- In the program of every script, with or without faults, the statements are in order and all
nodes are nested in the script. -/
theorem nested_parse (mode : LexMode) (source : List Char) :
    InOrder 0 (bytes source) ((parse mode source).program.body.map Stmt.span) ∧
      ∀ n, (parse mode source).program.Holds n → n.Nested source := by
  have hlaid := laid_parse mode source
  constructor
  · have hordered : InOrder 0 (0 + bytes source)
        (((parse mode source).program.body.map Node.stmt).map Node.span) := hlaid.self.inOrder
    rw [List.map_map, Nat.zero_add] at hordered
    exact hordered
  · intro n hn
    have hnode := hlaid n (Program.holds_root hn)
    refine ⟨hnode.text, hnode.inOrder, fun c hc hout => ⟨?_, Node.eq_unread_of_mem hc hout⟩⟩
    by_contra htemplate
    refine hout ?_
    unfold Node.standing
    split
    · next span parts => exact absurd ⟨span, parts, rfl⟩ htemplate
    · exact hc

end ScriptCheck
