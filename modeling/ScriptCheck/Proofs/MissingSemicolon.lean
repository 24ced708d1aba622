import ScriptCheck.Proofs.OmittedText
import ScriptCheck.Proofs.TrackProgram

/-!
# A semicolon that is missing

In a script without faults, a blank takes the place of a semicolon that ends a statement and stands
before a token that starts a statement on a later line. What is read then is the same program up to
regions, with the one fault that a semicolon was expected before that token (`omitted_parse`). Other
semicolons are statements by themselves or stand in the head of a loop; they belong to a node that
does not end with them, and a semicolon belongs to one node only (`Node.eq_of_encloses`). The faults
are those of the omission also before a token that closes a list of statements, unless the statement
exports a function (`Omission.parse_eq`).
-/

namespace ScriptCheck

open Text

/-- Whether a statement is a semicolon by itself. -/
def Stmt.isEmpty : Stmt → Bool
  | .empty _ => true
  | _ => false

/-- A statement ends with a semicolon: the statement is not an empty one, and the semicolon is the
last token in its region and lies in no part of it. -/
structure Stmt.EndsWith (s : Stmt) (semi : Token) : Prop where
  notEmpty : s.isEmpty = false
  encloses : s.span.Encloses semi.span
  last : s.span.hi = semi.span.hi
  outside : ∀ n ∈ s.parts, ¬n.span.Encloses semi.span

instance (s : Stmt) (semi : Token) : Decidable (s.EndsWith semi) :=
  decidable_of_iff
    (s.isEmpty = false ∧ (s.span.lo ≤ semi.span.lo ∧ semi.span.hi ≤ s.span.hi) ∧
      s.span.hi = semi.span.hi ∧
      ∀ n ∈ s.parts, ¬(n.span.lo ≤ semi.span.lo ∧ semi.span.hi ≤ n.span.hi))
    ⟨fun ⟨h, h', h'', h'''⟩ => ⟨h, h', h'', h'''⟩, fun h => ⟨h.1, h.2, h.3, h.4⟩⟩

/-- The statement that a node is. -/
def Node.stmt? : Node → Option Stmt
  | .stmt s => some s
  | _ => none

theorem Node.exists_of_stmt? {n : Node} {p : Stmt → Bool} (h : n.stmt?.any p) :
    ∃ s, n = .stmt s ∧ p s := by
  cases n with
  | stmt s => exact ⟨s, rfl, h⟩
  | _ => cases h

/-- A stretch of the script belongs to one node only, if it lies in no part of it. -/
theorem Node.eq_of_encloses {source : List Char} {n m l : Node} {r : Span}
    (h : n.All (Laid source)) (hr : 0 < r.len) (hm : n.Holds m) (hl : n.Holds l)
    (hmr : m.span.Encloses r) (hlr : l.span.Encloses r)
    (hmparts : ∀ c ∈ m.parts, ¬c.span.Encloses r) (hlparts : ∀ c ∈ l.parts, ¬c.span.Encloses r) :
    m = l := by
  have hpos {a : Node} (ha : a.span.Encloses r) : 0 < a.span.len := by
    have hlo := ha.1
    have hhi := ha.2
    unfold Span.hi at hhi
    omega
  have below {a b : Node} (ha : n.Holds a) (hab : a.Holds b) (hb : b.span.Encloses r)
      (hparts : ∀ c ∈ a.parts, ¬c.span.Encloses r) : b = a := by
    refine (holds_iff.1 hab).resolve_right ?_
    rintro ⟨c, hc, hcb⟩
    have hall := h.of_holds (ha.trans (holds_of_mem hc))
    exact hparts c hc ((hall.encloses_of_pos hcb (hpos hb)).trans hb)
  have hapart {a b : Node} (ha : a.span.Encloses r) (hb : b.span.Encloses r) : ¬a.Before b := by
    intro hbefore
    have hle : r.hi ≤ r.lo := (ha.2.trans hbefore).trans hb.1
    unfold Span.hi at hle
    omega
  rcases apart_or_holds h hm hl (hpos hmr) (hpos hlr) with hml | hlm | hml | hlm
  · exact absurd hml (hapart hmr hlr)
  · exact absurd hlm (hapart hlr hmr)
  · exact (below hm hml hlr hmparts).symm
  · exact below hl hlm hmr hlparts

/-- A semicolon that ends a statement is not needed by any node. -/
theorem Omission.not_needed {o : Omission} {mode : LexMode} {source : List Char} {s : Stmt}
    (hsize : 0 < o.semi.span.len) (hs : (parse mode source).program.Holds (.stmt s))
    (hends : s.EndsWith o.semi)
    (hexport : o.next.kind.closesBlock = true → s.exportsFunction = false) :
    ¬o.Needed ((parse mode source).program.body.map .stmt) := by
  rintro ⟨n, hn, m, hm, hneeded⟩
  have hroot : ((parse mode source).program.root source).Holds m := (Node.holds_of_mem hn).trans hm
  obtain rfl : m = .stmt s := Node.eq_of_encloses (laid_parse mode source) hsize hroot
    (Program.holds_root hs) hneeded.encloses hends.encloses hneeded.between hends.outside
  rcases hneeded.inner with hempty | hlt | ⟨hcloses, f, hf, hfunction⟩
  · have hne := hends.notEmpty
    rw [Node.stmt.inj hempty] at hne
    cases hne
  · exact Nat.lt_irrefl _ (hends.last ▸ hlt)
  · obtain rfl := Node.stmt.inj hf
    rw [hexport hcloses] at hfunction
    cases hfunction

/-- A blank takes the place of a semicolon that ends a statement of a script without faults, at any
depth. The faults are those of the omission, and the program stays the same up to regions. -/
theorem Omission.parse_eq {o : Omission} {mode : LexMode} {front back : List Char} {s : Stmt}
    (hclean : (parse mode (front ++ ';' :: back)).errors = [])
    (hadjacent : Adjacent o.semi o.next (tokenize mode (front ++ ';' :: back)))
    (hlo : o.semi.lo = bytes front)
    (hs : (parse mode (front ++ ';' :: back)).program.Holds (.stmt s)) (hends : s.EndsWith o.semi)
    (hexport : o.next.kind.closesBlock = true → s.exportsFunction = false) :
    (parse mode (front ++ ' ' :: back)).errors = o.faults ∧
      (parse mode (front ++ ' ' :: back)).program.stripped =
        (parse mode (front ++ ';' :: back)).program.stripped := by
  have hsize : 0 < o.semi.span.len := by
    have hne := hadjacent.bounds.2.2.resolve_left (by rw [o.isSemicolon]; nofun)
    exact Nat.pos_of_ne_zero (mt bytes_eq_zero.1 hne)
  have htext : o.OmitsText mode .none 0 (front ++ ';' :: back) (front ++ ' ' :: back) :=
    omits_tokensFrom hadjacent (hlo.trans (Nat.zero_add _).symm) (dotsNamed_parse hclean)
  obtain ⟨ts, ts', eof, eof', htokens, htokens', heof, homits⟩ := htext
  exact (Parser.needed_or_parse homits heof htokens htokens' (Blanked.place front back).bytes_eq
    hclean).resolve_left (o.not_needed hsize hs hends hexport)

/-- A blank takes the place of a semicolon that ends a statement of a script without faults, at any
depth. If the token behind it starts a statement on a later line, then the only fault is that a
semicolon was expected before this token, and the program stays the same up to regions. -/
theorem omitted_parse {mode : LexMode} {front back : List Char} {semi next : Token} {s : Stmt}
    (hclean : (parse mode (front ++ ';' :: back)).errors = [])
    (hadjacent : Adjacent semi next (tokenize mode (front ++ ';' :: back)))
    (hkind : semi.kind = .punct .semicolon) (hlo : semi.lo = bytes front)
    (hs : (parse mode (front ++ ';' :: back)).program.Holds (.stmt s)) (hends : s.EndsWith semi)
    (hstarts : next.kind.startsStatement) (hline : next.onNewLine) :
    (parse mode (front ++ ' ' :: back)).errors =
        [⟨next.span, .expected [.punct .semicolon] next.kind⟩] ∧
      (parse mode (front ++ ' ' :: back)).program.stripped =
        (parse mode (front ++ ';' :: back)).program.stripped := by
  let o : Omission := ⟨semi, next, hkind, .inl ⟨hstarts, hline⟩⟩
  have hcloses : o.next.kind.closesBlock = false := TokenKind.closesBlock_of_startsStatement hstarts
  have hparse := o.parse_eq hclean hadjacent hlo hs hends fun h => by simp [hcloses] at h
  rwa [Omission.faults, hcloses] at hparse

theorem adjacent_of_getElem? {a b : Token} {ts : List Token} {i : Nat} (ha : ts[i]? = some a)
    (hb : ts[i + 1]? = some b) : Adjacent a b ts := by
  induction ts generalizing i with
  | nil => cases ha
  | cons t ts ih =>
    cases i with
    | zero =>
      cases ts with
      | nil => cases hb
      | cons u ts =>
        obtain rfl : t = a := Option.some.inj ha
        obtain rfl : u = b := Option.some.inj hb
        exact .here ts
    | succ i => exact .later t (ih ha hb)

/-- The semicolon of a call in the body of a function, before a comment and a `return`. -/
theorem omitted_parse_call :
    let front := "function f(a) \x7b a.b()".toList
    let back := " // done\nreturn a; \x7d".toList
    (parse .normal (front ++ ';' :: back)).errors = [] ∧
      (parse .normal (front ++ ' ' :: back)).errors =
        [⟨⟨31, 6⟩, .expected [.punct .semicolon] (.keyword .returnKw)⟩] ∧
      (parse .normal (front ++ ' ' :: back)).program.stripped =
        (parse .normal (front ++ ';' :: back)).program.stripped := by
  intro front back
  let semi : Token := ⟨.punct .semicolon, 21, [], [';']⟩
  let next : Token := ⟨.keyword .returnKw, 31, " // done\n".toList, "return".toList⟩
  have hclean : (parse .normal (front ++ ';' :: back)).errors = [] := by decide +kernel
  have hsemi : (tokenize .normal (front ++ ';' :: back))[11]? = some semi := by decide +kernel
  have hnext : (tokenize .normal (front ++ ';' :: back))[12]? = some next := by decide +kernel
  have hends : ((parse .normal (front ++ ';' :: back)).program.body.flatMap Stmt.parts).any
      fun n => n.stmt?.any fun s => s.EndsWith semi := by decide +kernel
  obtain ⟨n, hn, hs⟩ := List.any_eq_true.1 hends
  obtain ⟨s, rfl, hs⟩ := Node.exists_of_stmt? hs
  obtain ⟨f, hf, hn⟩ := List.mem_flatMap.1 hn
  exact ⟨hclean, omitted_parse hclean (adjacent_of_getElem? hsemi hnext) rfl (by decide +kernel)
    ⟨f, hf, Node.holds_of_mem hn⟩ (of_decide_eq_true hs) rfl (by decide +kernel)⟩

end ScriptCheck
