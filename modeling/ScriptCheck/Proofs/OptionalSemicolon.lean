import ScriptCheck.Proofs.MissingSemicolon

/-!
# A semicolon that may be left out

A list of statements is read up to one of a few tokens (`listEnds`). The last statement of a list
may do without its semicolon: in a script without faults, a blank takes the place of a semicolon
that stands before such a token, and what is read then has no faults either and is the same program
up to regions (`unchanged_parse`). An exported function is the exception, since it ends with a
semicolon everywhere.

The `else` behind the first branch of an `if` with colons ends a list too, but it is not one of the
tokens that a semicolon may be left out before (`missing_before_else`).
-/

namespace ScriptCheck

open Text

/-- The tokens up to which a list of statements is read: in braces, in a script, in the body of a
function or a loop, in a branch and in a case. -/
def listEnds : List TokenKind :=
  [.punct .rbrace, .eof, .keyword .endfunctionKw, .keyword .endforKw, .keyword .endwhileKw,
    .keyword .endifKw, .keyword .elifKw, .keyword .elseKw, .keyword .caseKw, .keyword .defaultKw]

/-- All of them but `else` close a list without a semicolon. -/
theorem closesBlock_of_mem_listEnds :
    ∀ kind ∈ listEnds, kind ≠ .keyword .elseKw → kind.closesBlock = true := by
  decide

/-- A blank takes the place of a semicolon that ends a statement of a script without faults, at any
depth. If the token behind it ends a list of statements, then there is no fault, and the program
stays the same up to regions. This holds for all such tokens but `else`, and for all statements but
exported functions. -/
theorem unchanged_parse {mode : LexMode} {front back : List Char} {semi next : Token} {s : Stmt}
    (hclean : (parse mode (front ++ ';' :: back)).errors = [])
    (hadjacent : Adjacent semi next (tokenize mode (front ++ ';' :: back)))
    (hkind : semi.kind = .punct .semicolon) (hlo : semi.lo = bytes front)
    (hs : (parse mode (front ++ ';' :: back)).program.Holds (.stmt s)) (hends : s.EndsWith semi)
    (hexport : s.exportsFunction = false) (hnext : next.kind ∈ listEnds)
    (helse : next.kind ≠ .keyword .elseKw) :
    (parse mode (front ++ ' ' :: back)).errors = [] ∧
      (parse mode (front ++ ' ' :: back)).program.stripped =
        (parse mode (front ++ ';' :: back)).program.stripped := by
  have hcloses : next.kind.closesBlock = true := closesBlock_of_mem_listEnds _ hnext helse
  let o : Omission := ⟨semi, next, hkind, .inr hcloses⟩
  have hparse := o.parse_eq hclean hadjacent hlo hs hends fun _ => hexport
  rwa [Omission.faults, if_pos hcloses] at hparse

/-- A statement of a program, among the parts of the parts of its statements. -/
theorem Program.exists_holds (program : Program) {p : Stmt → Bool}
    (h : ((program.body.flatMap Stmt.parts).flatMap Node.parts).any fun n => n.stmt?.any p) :
    ∃ s, program.Holds (.stmt s) ∧ p s = true := by
  obtain ⟨n, hn, hs⟩ := List.any_eq_true.1 h
  obtain ⟨s, rfl, hs⟩ := Node.exists_of_stmt? hs
  obtain ⟨m, hm, hn⟩ := List.mem_flatMap.1 hn
  obtain ⟨root, hroot, hm⟩ := List.mem_flatMap.1 hm
  have hbranch : (Node.stmt root).Holds m := Node.holds_of_mem hm
  exact ⟨s, ⟨root, hroot, hbranch.trans (Node.holds_of_mem hn)⟩, hs⟩

/-- The semicolon of a `return` in the first branch of an `if` with colons, before the `elif`. -/
theorem unchanged_parse_elif :
    let front := "if(a): return".toList
    let back := " elif(b): y(); endif".toList
    (parse .normal (front ++ ';' :: back)).errors = [] ∧
      (parse .normal (front ++ ' ' :: back)).errors = [] ∧
      (parse .normal (front ++ ' ' :: back)).program.stripped =
        (parse .normal (front ++ ';' :: back)).program.stripped := by
  intro front back
  let semi : Token := ⟨.punct .semicolon, 13, [], [';']⟩
  let next : Token := ⟨.keyword .elifKw, 15, [' '], "elif".toList⟩
  have hclean : (parse .normal (front ++ ';' :: back)).errors = [] := by decide +kernel
  have hsemi : (tokenize .normal (front ++ ';' :: back))[6]? = some semi := by decide +kernel
  have hnext : (tokenize .normal (front ++ ';' :: back))[7]? = some next := by decide +kernel
  obtain ⟨s, hs, hends⟩ := (parse .normal (front ++ ';' :: back)).program.exists_holds
    (p := fun s => s.EndsWith semi ∧ s.exportsFunction = false) (by decide +kernel)
  obtain ⟨hends, hexport⟩ := of_decide_eq_true hends
  exact ⟨hclean, unchanged_parse hclean (adjacent_of_getElem? hsemi hnext) rfl (by decide +kernel)
    hs hends hexport (by decide) (by decide)⟩

/-- Before the `else` of an `if` with colons, a semicolon may not be left out, although this `else`
ends a list of statements. -/
theorem missing_before_else :
    let front := "if(a): x()".toList
    let back := " else: y(); endif".toList
    ∃ semi next s, (parse .normal (front ++ ';' :: back)).errors = [] ∧
      Adjacent semi next (tokenize .normal (front ++ ';' :: back)) ∧
      semi.kind = .punct .semicolon ∧ semi.lo = bytes front ∧
      (parse .normal (front ++ ';' :: back)).program.Holds (.stmt s) ∧ s.EndsWith semi ∧
      s.exportsFunction = false ∧ next.kind ∈ listEnds ∧
      (parse .normal (front ++ ' ' :: back)).errors =
        [⟨⟨12, 4⟩, .expected [.punct .semicolon] (.keyword .elseKw)⟩] := by
  intro front back
  let semi : Token := ⟨.punct .semicolon, 10, [], [';']⟩
  let next : Token := ⟨.keyword .elseKw, 12, [' '], "else".toList⟩
  have hsemi : (tokenize .normal (front ++ ';' :: back))[8]? = some semi := by decide +kernel
  have hnext : (tokenize .normal (front ++ ';' :: back))[9]? = some next := by decide +kernel
  obtain ⟨s, hs, hends⟩ := (parse .normal (front ++ ';' :: back)).program.exists_holds
    (p := fun s => s.EndsWith semi ∧ s.exportsFunction = false) (by decide +kernel)
  obtain ⟨hends, hexport⟩ := of_decide_eq_true hends
  exact ⟨semi, next, s, by decide +kernel, adjacent_of_getElem? hsemi hnext, rfl, by decide +kernel,
    hs, hends, hexport, by decide, by decide +kernel⟩

end ScriptCheck
