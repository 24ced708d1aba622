import ScriptCheck.Proofs.Interpolations
import ScriptCheck.Proofs.Nodes

/-!
# Words of a script

A word is scanned as far as it goes, so no word goes on behind the token of a word; this holds in
the whole script and not only in the excerpt that is read, as an excerpt is closed by a brace or
ends with a backtick (`isWord_of_mem`).

The interpolations of a template are stretches of its text in order, each of them closed by a brace
or by the end of the text (`stretches_interpolationsFrom`).
-/

namespace ScriptCheck

open List

open Text

/-! ### The kinds of words -/

theorem TokenKind.sort?_of_isKeyword {kind : TokenKind} (h : kind = .label ∨ kind.isKeyword) :
    kind.sort? = some .word := by
  cases kind <;> simp_all [sort?, isKeyword]

variable {mode : LexMode} {before : Preceding} {lo : Nat} {cs : List Char} {t : Token}

theorem lexeme_of_wordKind {word : List Char} {w : Keyword} (h : wordKind mode word = .keyword w) :
    w.lexeme.toList = word := by
  cases mode with
  | raw => cases h
  | normal =>
    cases hword : Keyword.ofWord? word with
    | none => simp [wordKind, hword] at h
    | some w' =>
      have hw : w' = w := by simpa [wordKind, hword] using h
      exact Keyword.ofWord?_eq_some_iff.1 (hw ▸ hword)

/-! ### Words in a script -/

/-- The token of a keyword is written as the keyword. -/
theorem text_of_keyword (ht : t ∈ tokensFrom mode before lo cs) {w : Keyword}
    (hkind : t.kind = .keyword w) : t.text = w.lexeme.toList := by
  obtain ⟨divides, front, c, rest, hat, -, hscan⟩ :=
    found_of_mem ht (congrArg TokenKind.sort? hkind)
  have hword := hat.kind
  rw [hscan] at hword
  rw [hat.text, hscan]
  exact (lexeme_of_wordKind (hword.symm.trans hkind)).symm

/-- An excerpt of a script, of which no last word goes on behind it. -/
def Excerpt.Closed (source : List Char) (e : Excerpt) : Prop :=
  ∃ before after, source = before ++ (e.text ++ after) ∧ bytes before = e.lo ∧
    ∀ c ∈ e.text.getLast?, isWordChar c → startsWith isWordChar after = false

theorem closed_script (source : List Char) : Excerpt.Closed source ⟨0, source⟩ :=
  ⟨[], [], by simp, rfl, fun _ _ _ => rfl⟩

theorem Excerpt.Closed.slice? {source : List Char} {e : Excerpt} (h : e.Closed source) :
    slice? source e.lo (e.lo + bytes e.text) = some e.text := by
  obtain ⟨before, after, heq, hlo, -⟩ := h
  exact slice?_eq_some_iff.2 ⟨before, after, heq, hlo, rfl⟩

theorem isWordChar_of_isWordStart {c : Char} (h : isWordStart c) : isWordChar c := by
  unfold isWordStart at h
  unfold isWordChar
  simp only [Bool.or_eq_true] at h ⊢
  exact h.elim (fun h => .inl (.inl h)) .inr

/-- The token of a word stands for a whole word of the script. -/
theorem isWord_of_mem {source : List Char} {e : Excerpt} (he : e.Closed source)
    (ht : t ∈ tokensFrom mode before e.lo e.text) (hkind : t.kind = .label ∨ t.kind.isKeyword) :
    t.ident.IsWord source := by
  obtain ⟨pre, post, hsource, hlo, hclosed⟩ := he
  obtain ⟨divides, front, c, rest, ⟨heq, htlo, -, htext, -⟩, hstart, hscan⟩ :=
    found_of_mem ht (TokenKind.sort?_of_isKeyword hkind)
  rw [hscan, take_runLength] at htext
  have hword := isWordChar_of_isWordStart hstart
  have hname : t.ident.name.toList = c :: rest.takeWhile isWordChar := by
    rw [← htext]
    exact String.toList_ofList
  refine ⟨pre ++ front, rest.dropWhile isWordChar ++ post, ?_, ?_, ?_, ?_, ?_⟩
  · have hrest : rest = rest.takeWhile isWordChar ++ rest.dropWhile isWordChar :=
      takeWhile_append_dropWhile.symm
    calc source = pre ++ ((front ++ c :: rest) ++ post) := by rw [hsource, heq]
      _ = pre ++ ((front ++ c :: (rest.takeWhile isWordChar ++ rest.dropWhile isWordChar)) ++
          post) := by rw [← hrest]
      _ = _ := by rw [hname]; simp only [append_assoc, cons_append]
  · rw [bytes_append, hlo]
    exact htlo.symm
  · rw [hname, ← htext]
    rfl
  · rw [hname]
    exact hword
  · cases hdrop : rest.dropWhile isWordChar with
    | cons d more =>
      have hhead := head?_dropWhile_not isWordChar rest
      rw [hdrop] at hhead
      simpa [startsWith] using hhead
    | nil =>
      -- the word is the last one of the excerpt, and does not go on behind it
      have hall : ∀ d ∈ rest, isWordChar d := by simpa using hdrop
      have hlast : ∃ d ∈ e.text.getLast?, isWordChar d := by
        rw [heq]
        cases hrest : rest.getLast? with
        | none =>
          rw [getLast?_eq_none_iff.1 hrest]
          exact ⟨c, by simp, hword⟩
        | some d =>
          refine ⟨d, ?_, hall d (mem_of_getLast? hrest)⟩
          rw [getLast?_append_cons, getLast?_cons, hrest]
          rfl
      obtain ⟨d, hd, hdword⟩ := hlast
      exact hclosed d hd hdword

/-! ### Interpolations in order -/

/-- Excerpts that stand in a text from an offset on, one after the other, each closed by a brace or
by the end of the text. -/
def Stretches (lo : Nat) (cs : List Char) : List Excerpt → Prop
  | [] => True
  | e :: es => ∃ before after, cs = before ++ (e.text ++ after) ∧ e.lo = lo + bytes before ∧
      (after = [] ∨ ∃ rest, after = '\x7d' :: rest) ∧ Stretches (e.lo + bytes e.text) after es

/-- Text before the first excerpt does not matter. -/
theorem Stretches.prepend (front : List Char) {es : List Excerpt}
    (h : Stretches (lo + bytes front) cs es) : Stretches lo (front ++ cs) es := by
  cases es with
  | nil => trivial
  | cons e es =>
    obtain ⟨before, after, rfl, hlo, hafter, hrest⟩ := h
    exact ⟨front ++ before, after, by simp, by rw [hlo, bytes_append, Nat.add_assoc], hafter, hrest⟩

theorem stretches_interpolationsFrom (lo : Nat) (cs : List Char) :
    Stretches lo cs (interpolationsFrom lo cs) := by
  fun_induction interpolationsFrom lo cs with
  | case1 => trivial
  | case2 => trivial
  | case3 lo c rest ih => exact ih.prepend _
  | case4 lo rest body ih =>
    refine ⟨['$', '\x7b'], rest.drop (bodyLength 0 none rest), ?_, rfl,
      drop_bodyLength 0 none rest, ?_⟩
    · simp [body]
    · -- what follows the body is nothing, or the brace that closes it and the rest of the text
      rw [← drop_drop] at ih ⊢
      rcases drop_bodyLength 0 none rest with hnil | ⟨tail, htail⟩
      · rw [hnil, drop_nil, interpolationsFrom]
        trivial
      · rw [htail] at ih ⊢
        exact Stretches.prepend ['\x7d'] ih
  | case5 lo c rest _ _ _ ih => exact ih.prepend _

/-- The text of a template ends with a backtick. -/
theorem getLast?_of_template (ht : t ∈ tokensFrom mode before lo cs) (hkind : t.kind = .template) :
    t.text.getLast? = some '`' := by
  obtain ⟨body, htext, -⟩ := closedTemplate_of_mem ht hkind
  rw [htext, ← cons_append, getLast?_concat]

end ScriptCheck
