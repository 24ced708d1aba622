import Mathlib.Data.List.TakeWhile
import ScriptCheck.Proofs.Scanned
import ScriptCheck.Proofs.Slices
import ScriptCheck.Token.Value

/-!
# Parts of literals

The parts that a literal is taken apart into are slices of the script, at the offsets that follow
from those of the token: the text between the quotes of a string, what stands before and after the
last slash of a regular expression, the digits of a number after its radix, and the interpolations
of a template.
-/

namespace ScriptCheck

open List

open Text

/-- An interpolation ends with the text or before a brace. -/
theorem drop_bodyLength (braces : Nat) (quote : Option Char) (cs : List Char) :
    cs.drop (bodyLength braces quote cs) = [] ∨
      ∃ rest, cs.drop (bodyLength braces quote cs) = '\x7d' :: rest := by
  fun_induction bodyLength braces quote cs <;> simp_all

/-- An interpolation is a stretch of the template's text, after the two characters that open it. -/
theorem mem_interpolationsFrom {lo : Nat} {cs : List Char} {e : Excerpt}
    (h : e ∈ interpolationsFrom lo cs) :
    ∃ before after, cs = before ++ (e.text ++ after) ∧ e.lo = lo + bytes before ∧
      2 ≤ before.length := by
  fun_induction interpolationsFrom lo cs with
  | case1 => simp at h
  | case2 => simp at h
  | case3 lo c rest ih =>
    obtain ⟨before, after, rfl, hlo, hlen⟩ := ih h
    refine ⟨'\\' :: c :: before, after, rfl, ?_, by simp⟩
    simp [hlo, Nat.add_assoc]
  | case4 lo rest body ih =>
    rcases mem_cons.1 h with rfl | h
    · refine ⟨['$', '\x7b'], rest.drop (bodyLength 0 none rest), ?_, rfl, by simp⟩
      simp [body]
    · obtain ⟨before, after, heq, hlo, hlen⟩ := ih h
      -- what follows the body is the brace that closes it, as the text goes on
      obtain ⟨tail, htail⟩ : ∃ tail, rest.drop (bodyLength 0 none rest) = '\x7d' :: tail := by
        refine (drop_bodyLength 0 none rest).resolve_left fun hnil => ?_
        rw [← drop_drop, hnil, drop_nil] at heq
        simp [(append_eq_nil_iff.1 heq.symm).1] at hlen
      have hrest : rest = body ++ '\x7d' :: tail := by
        rw [← htail]
        exact (take_append_drop _ _).symm
      rw [← drop_drop, htail, drop_one, tail_cons] at heq
      refine ⟨'$' :: '\x7b' :: (body ++ '\x7d' :: before), after, ?_, ?_, by simp⟩
      · simp [hrest, heq]
      · rw [hlo]
        have hsizes : ('$' : Char).utf8Size = 1 ∧ ('\x7b' : Char).utf8Size = 1 ∧
            ('\x7d' : Char).utf8Size = 1 := by decide
        simp only [bytes_cons, bytes_append, hsizes]
        omega
  | case5 lo c rest _ _ _ ih =>
    obtain ⟨before, after, rfl, hlo, hlen⟩ := ih h
    exact ⟨c :: before, after, rfl, by simp [hlo, Nat.add_assoc], by simp; omega⟩

/-! ### Slices of literals -/

variable {mode : LexMode} {before : Preceding} {lo : Nat} {cs : List Char} {t : Token}

variable {source : List Char}

/-- The interpolations of a template are slices. -/
theorem text?_of_mem_interpolations (hslice : t.span.text? source = some t.text) {e : Excerpt}
    (he : e ∈ t.interpolations) : e.span.text? source = some e.text := by
  obtain ⟨front, after, heq, hlo, -⟩ := mem_interpolationsFrom he
  have htext : t.text = (t.text.take 1 ++ front) ++ (e.text ++ after) := by
    rw [append_assoc, ← heq, take_append_drop]
  have hparts : slice? source t.lo t.span.hi =
      some ((t.text.take 1 ++ front) ++ (e.text ++ after)) := htext ▸ hslice
  have hstart : e.lo = t.lo + bytes (t.text.take 1 ++ front) := by
    rw [hlo, bytes_append, Nat.add_assoc]
  have := slice?_of_slice? hparts
  rwa [← hstart] at this

end ScriptCheck
