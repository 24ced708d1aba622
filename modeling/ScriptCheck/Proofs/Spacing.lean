import ScriptCheck.Proofs.FixedTokens
import ScriptCheck.Proofs.Patterns

/-!
# Spacing

What stands between the tokens of a script does not matter for how they are read. The tokens of a
script without malformed ones, written on one line with a blank between any two of them, are read
from there again (`lexemes_tokenize_line`): a token of any sort is scanned from its own text before
a blank (`scans_scan`), and a slash is read by the tokens before it, which are the same.
-/

namespace ScriptCheck

open List

open Text

variable {mode : LexMode} {divides : Bool} {c : Char} {cs : List Char}

/-! ### Literals -/

namespace Lexeme

/-- A string is scanned from its own text. -/
theorem scans_string (hquote : c = '"' ∨ c = '\'') {body : List Char}
    (h : ∀ more, stringEnd c (body ++ c :: more) = ⟨some false, body.length + 1⟩) :
    Scans mode divides ⟨.string, c :: (body ++ [c])⟩ := by
  refine ⟨c, body ++ [c], rfl, fun more _ => ⟨?_, ?_⟩⟩
  · rcases hquote with rfl | rfl <;> exact pieceLength_eq_zero rfl nofun nofun
  · have hquote : (decide (c = '"') || decide (c = '\'')) = true := by simpa using hquote
    rw [append_assoc, singleton_append, scan, if_pos hquote, h, length_append]
    rfl

/-- A template is scanned from its own text. -/
theorem scans_template {body : List Char}
    (h : ∀ more, templateEnd [.text] (body ++ '`' :: more) = ⟨some false, body.length + 1⟩) :
    Scans mode divides ⟨.template, '`' :: (body ++ ['`'])⟩ := by
  refine ⟨'`', body ++ ['`'], rfl, fun more _ => ⟨pieceLength_eq_zero rfl nofun nofun, ?_⟩⟩
  rw [append_assoc, singleton_append, scan, if_neg (by decide), if_pos rfl, h,
    length_append]
  rfl

/-- A regular expression is scanned from its own text, where a slash does not divide. -/
theorem scans_regexp {pattern flags : List Char} {d : Char}
    (hhead : pattern.head? = some d) (hd : isBlank d = false ∧ d ≠ '/' ∧ d ≠ '*')
    (hflags : ∀ f ∈ flags, isLetter f) (hregexp : flags.all isRegexpFlag)
    (h : ∀ more, regexpLength? false (pattern ++ '/' :: more) = some (pattern.length + 1)) :
    Scans mode false ⟨.regexp, '/' :: (pattern ++ '/' :: flags)⟩ := by
  obtain ⟨hblank, hslash, hstar⟩ := hd
  obtain ⟨pattern, rfl⟩ := head?_eq_some_iff.1 hhead
  refine ⟨'/', _, rfl, fun more hmore => ⟨?_, ?_⟩⟩
  · exact pieceLength_eq_zero rfl nofun fun _ => by simp [startsWith, hslash, hstar]
  · have hrun : (flags ++ more).takeWhile isLetter = flags := by
      rw [← take_runLength, hmore.runLength_append rfl hflags, take_left]
    have htail : (d :: pattern ++ '/' :: (flags ++ more)).drop ((d :: pattern).length + 1) =
        flags ++ more := by
      rw [← drop_drop, drop_left]
      rfl
    rw [append_assoc]
    change scan mode false '/' (d :: pattern ++ '/' :: (flags ++ more)) = _
    rw [scan_slash (by simpa using hstar), if_neg (by decide), scanRegexp,
      if_neg (by simp [startsWith, hblank]), h]
    dsimp only
    rw [htail, hrun, if_pos hregexp]
    simp [Nat.add_comm, Nat.add_left_comm]

/-- One more lexeme is written behind a line. -/
theorem line_concat (l : Lexeme) (ls : List Lexeme) (last : Lexeme) :
    line (l :: ls ++ [last]) = line (l :: ls) ++ ' ' :: last.text := by
  induction ls generalizing l with
  | nil => simp [line]
  | cons l' ls ih => simpa [line] using ih l'

end Lexeme

/-! ### Tokens -/

/-- A token that is not malformed is scanned from its own text before a blank. -/
theorem scans_scan {kind : TokenKind} {n : Nat} (hscan : scan mode divides c cs = (kind, n))
    (hkind : kind.isError = false) (hbare : ∃ atStart, pieceLength atStart (c :: cs) = 0) :
    Lexeme.Scans mode divides ⟨kind, c :: cs.take n⟩ := by
  have heof : kind ≠ .eof := by
    have hne := scan_ne_eof mode divides c cs
    rwa [hscan] at hne
  obtain ⟨sort, hsort⟩ : ∃ sort, kind.sort? = some sort := by
    cases kind with
    | error => cases hkind
    | eof => exact absurd rfl heof
    | _ => exact ⟨_, rfl⟩
  have hfound : sort.Found mode divides c cs := found_scan (by rw [hscan]; exact hsort)
  cases sort with
  | string =>
    obtain ⟨hquote, hclosed, hend⟩ := hfound
    obtain ⟨body, after, rfl, hbody⟩ := exists_stringEnd hquote hclosed
    obtain ⟨rfl, rfl⟩ := Prod.mk.inj (hscan.symm.trans hend)
    rw [hbody, take_length_add_append]
    exact Lexeme.scans_string hquote hbody
  | template =>
    obtain ⟨rfl, hclosed, hend⟩ := hfound
    obtain ⟨body, after, rfl, hbody⟩ := closesTemplate hclosed
    obtain ⟨rfl, rfl⟩ := Prod.mk.inj (hscan.symm.trans hend)
    rw [hbody, take_length_add_append]
    exact Lexeme.scans_template hbody
  | number =>
    have hnumeral := numeral_scan hfound
    rw [hscan] at hnumeral
    exact Lexeme.scans_number hsort (hnumeral hsort).1 mode divides
  | word =>
    obtain ⟨hstart, hword⟩ := hfound
    obtain ⟨rfl, rfl⟩ := Prod.mk.inj (hscan.symm.trans hword)
    refine Lexeme.scans_word ?_ mode divides
    rw [isWord, hstart, take_runLength, Bool.true_and]
    exact all_takeWhile
  | regexp =>
    obtain ⟨rfl, hstar, hregexp⟩ := hfound
    obtain rfl : divides = false := by
      cases divides with
      | false => rfl
      | true =>
        have hmark : (scan mode true '/' cs).1.IsOf .mark := by
          rw [scan_slash hstar]
          exact isOf_scanPunct '/' cs
        rw [hscan] at hmark
        cases hmark.eq hsort
    rw [hregexp] at hscan
    obtain rfl : kind = .regexp := by
      cases kind with
      | regexp => rfl
      | _ => cases hsort
    obtain ⟨pattern, rest, rfl, hblank, -, hlength, htake, hflags⟩ :=
      exists_pattern (congrArg Prod.fst hscan)
    rw [hscan] at htake
    rw [htake]
    obtain ⟨atStart, hbare⟩ := hbare
    have hslash := head?_ne_slash hbare
    cases pattern with
    | nil => exact absurd rfl hslash
    | cons d pattern =>
      refine Lexeme.scans_regexp rfl ⟨hblank, ?_, ?_⟩ ?_ hflags hlength
      · exact fun hd => hslash (congrArg some hd)
      · exact fun hd => hstar (congrArg some hd)
      · exact all_eq_true.1 all_takeWhile
  | mark =>
    cases kind with
    | punct p =>
      obtain ⟨hp, -, htext⟩ := Punct.isLongest_of_scan (congrArg Prod.fst hscan)
      rw [hscan] at htext
      rw [htext]
      exact Lexeme.scans_mark hp.competes.slash
    | _ => cases hsort

/-- The tokens of a text without malformed ones can be read from their own texts. -/
theorem lexable_tokensFrom {before : Preceding} {lo : Nat}
    (h : ∀ t ∈ tokensFrom mode before lo cs, t.kind.isError = false) :
    ∃ ls, (tokensFrom mode before lo cs).map Token.lexeme = ls ++ [⟨.eof, []⟩] ∧
      Lexable mode before ls := by
  fun_induction tokensFrom mode before lo cs with
  | case1 before lo cs skipped gap start hrest => exact ⟨[], rfl, trivial⟩
  | case2 before lo cs skipped gap start c rest hrest kind n hscan text ih =>
    obtain ⟨hkind, htail⟩ := forall_mem_cons.1 h
    obtain ⟨ls, hls, hlexable⟩ := ih htail
    exact ⟨⟨kind, text⟩ :: ls, by rw [map_cons, hls]; rfl,
      scans_scan hscan hkind (pieceLength_of_drop hrest), hlexable⟩

/-- A script without malformed tokens is read in the same way when its tokens are written on one
line, with or without a blank at its end. -/
theorem lexemes_tokenize_line {source : List Char}
    (h : ∀ t ∈ tokenize mode source, t.kind.isError = false) :
    let ls := (tokenize mode source).map Token.lexeme
    (tokenize mode (Lexeme.line ls)).map Token.lexeme = ls ∧
      (tokenize mode (Lexeme.line ls.dropLast)).map Token.lexeme = ls := by
  obtain ⟨ls, hls, hlexable⟩ := lexable_tokensFrom h
  have hread {tail : List Char} (htail : tail = [] ∨ tail = [' ']) :
      (tokenize mode (Lexeme.line ls ++ tail)).map Token.lexeme = ls ++ [⟨.eof, []⟩] := by
    obtain ⟨ts, eof, htokens, hlexemes, -, heof⟩ :=
      lexemes_tokensFrom hlexable 0 (.inl rfl) htail
    rw [nil_append] at htokens
    rw [tokenize, htokens, map_append, hlexemes, map_singleton, heof]
  have hline : ∃ tail, (tail = [] ∨ tail = [' ']) ∧
      Lexeme.line (ls ++ [⟨.eof, []⟩]) = Lexeme.line ls ++ tail := by
    cases ls with
    | nil => exact ⟨[], .inl rfl, rfl⟩
    | cons l ls => exact ⟨[' '], .inr rfl, Lexeme.line_concat l ls _⟩
  obtain ⟨tail, htail, hline⟩ := hline
  change (tokenize mode source).map Token.lexeme = _ at hls
  intro ls'
  rw [show ls' = ls ++ [⟨.eof, []⟩] from hls, hline, dropLast_concat]
  exact ⟨hread htail, by simpa using hread (.inl rfl)⟩

/-- A number behind a question mark, a template, a slash that divides and one that opens a regular
expression. -/
theorem lexemes_tokenize_line_slashes :
    let source := "x=a?.5:`b$\x7bc\x7d`/*c*/\n/ /[/]\\//g;".toList
    let ls := (tokenize .normal source).map Token.lexeme
    (∀ t ∈ tokenize .normal source, t.kind.isError = false) ∧
      Lexeme.line ls = "x = a ? .5 : `b$\x7bc\x7d` / /[/]\\//g ; ".toList ∧
      (tokenize .normal (Lexeme.line ls)).map Token.lexeme = ls := by
  intro source ls
  have h : ∀ t ∈ tokenize .normal source, t.kind.isError = false := by decide +kernel
  exact ⟨h, by decide +kernel, (lexemes_tokenize_line h).1⟩

end ScriptCheck
