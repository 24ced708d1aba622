import ScriptCheck.Proofs.Dots

/-!
# Faithful trees

Of a script without faults, the tokens before the end spell the program that was read from it, so no
token was dropped or invented (`spelled_parse`).
-/

namespace ScriptCheck

open Spelling

theorem allRead_of_stmtsSpelling {braces : Bool} {ts us : List Token} (ss : List Stmt)
    (h : stmtsSpelling braces ss ts us) : stmtsRegions allRead ss :=
  (dotted_stmts ss).2 _ _ h

/-- Of a script without faults, the tokens before the end spell the program that was read, all parts
of which could be read. Besides the choices that the grammar leaves, braces without a name may
follow the default name of an import. -/
theorem spelled_parse (mode : LexMode) (source : List Char)
    (hclean : (parse mode source).errors = []) :
    ∃ tokens last, tokenize mode source = tokens ++ [last] ∧ last.kind = .eof ∧
      stmtsSpelling true (parse mode source).program.body tokens [] ∧
      stmtsRegions allRead (parse mode source).program.body := by
  obtain ⟨tokens, gap, heq, -⟩ := tokensFrom_eq_append mode .none 0 source
  -- no token is left over, so the whole list before the end spells the statements
  have hspelled := (Parser.got_readScript mode source).reads hclean
  rw [Parser.rest_readScript, tokenize, heq, List.dropLast_concat] at hspelled
  exact ⟨tokens, _, heq, rfl, hspelled, allRead_of_stmtsSpelling _ hspelled⟩

/-- A trailing comma after a spread argument in a template, a bare parameter, bodies after colons
and omitted semicolons. -/
theorem spelled_parse_bodies :
    let source := "let f = x => `a${g(...x,)}`; if (f): g(1) elif (g): else: {} endif".toList
    (parse .normal source).errors = [] ∧
      ∃ tokens last, tokenize .normal source = tokens ++ [last] ∧ last.kind = .eof ∧
        stmtsSpelling true (parse .normal source).program.body tokens [] ∧
        stmtsRegions allRead (parse .normal source).program.body := by
  intro source
  have hclean : (parse .normal source).errors = [] := by decide +kernel
  exact ⟨hclean, spelled_parse .normal source hclean⟩

/-- In an import of a default name the third token is `from`, unless braces may follow the name. -/
theorem kind_of_defaultImport {span : Span} {x : Ident} {lit : TextLit} {ts us : List Token}
    (h : (Stmt.imports span [.default x] lit).spelling false ts us) :
    ts[2]?.map Token.kind = some .label := by
  obtain ⟨_, ⟨_, ⟨_, ⟨_, ⟨_, rfl, -⟩, ⟨_, ⟨_, rfl, -⟩, hbraces⟩⟩, ⟨_, hfrom, hkind, -⟩⟩, -⟩, -⟩ := h
  obtain rfl | ⟨_, ⟨_, ⟨hfalse, -⟩, -⟩, -⟩ := hbraces
  · simp [hfrom, hkind]
  · simp at hfalse

/-- Whether all of a program is an import of a default name. -/
def Program.isDefaultImport (program : Program) : Bool :=
  match program.body with
  | [.imports _ [.default _] _] => true
  | _ => false

theorem Program.body_of_isDefaultImport {program : Program} (h : program.isDefaultImport) :
    ∃ span x lit, program.body = [.imports span [.default x] lit] := by
  unfold isDefaultImport at h
  split at h
  · next hbody => exact ⟨_, _, _, hbody⟩
  · simp at h

/-- Braces without a name after the default name of an import are no fault, and leave no trace in
the tree. -/
theorem unspelled_parse_braces :
    let source := "import x, {} from \"m\";".toList
    (parse .normal source).errors = [] ∧
      ¬ stmtsSpelling false (parse .normal source).program.body
        (tokenize .normal source).dropLast [] := by
  intro source
  have hprogram : (parse .normal source).program.isDefaultImport := by decide +kernel
  have hcomma : (tokenize .normal source).dropLast[2]?.map Token.kind = some (.punct .comma) := by
    decide +kernel
  refine ⟨by decide +kernel, fun h => ?_⟩
  obtain ⟨span, x, lit, hbody⟩ := Program.body_of_isDefaultImport hprogram
  rw [hbody] at h
  have hlabel := kind_of_defaultImport (of_append_nothing h)
  simp [hcomma] at hlabel

end ScriptCheck
