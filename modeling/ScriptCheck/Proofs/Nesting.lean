import Mathlib.Data.List.Chain
import ScriptCheck.Proofs.LayoutProgram

/-!
# How deep statements nest

A *way down* a tree goes from a node to one of its parts, and on from there (`Descends`). Of the
nodes on it, the statements with branches or a body are counted (`Node.nests`), and so are two
kinds of nodes that the limit on nesting does not cover: the further tests of an `if` with colons
(`Node.isElif`), and the templates that are left for one of their interpolations.

`Node.Bounded source k n` says that on no way down from `n` the first count exceeds `k` by more than
the other two account for. A node that has grown with `k` levels is bounded by them
(`Node.Grown.bounded`), and a script is read with as many levels as the limit allows
(`countP_nests_le`).
-/

namespace ScriptCheck

open List

open Text

variable {source : List Char}

/-! ### Ways down a tree -/

/-- Each of some nodes stands directly below the one before it. -/
def Descends (path : List Node) : Prop := path.IsChain fun n m => m ∈ n.parts

namespace Node

/-- On every way down from a node, the statements with branches or a body are at most `k`, and
`maxNesting` more for each template that is left for an interpolation, and one more for each further
test of an `if` with colons. -/
def Bounded (source : List Char) (k : Nat) (n : Node) : Prop :=
  ∀ path, Descends (n :: path) →
    (n :: path).countP nests ≤ k + maxNesting * (n :: path).dropLast.countP isTemplate +
      (n :: path).countP (isElif source)

variable {n : Node} {k l : Nat}

/-- What a node adds to the counts of its parts decides how far it is bounded. -/
theorem bounded_of_parts (hparts : ∀ m ∈ n.parts, m.Bounded source k)
    (hself : n.nests.toNat ≤ l + (n.isElif source).toNat)
    (hbelow : n.nests.toNat + k ≤ l + maxNesting * n.isTemplate.toNat + (n.isElif source).toNat) :
    n.Bounded source l := by
  have hcount (p : Node → Bool) (path : List Node) :
      (n :: path).countP p = path.countP p + (p n).toNat := by
    rw [countP_cons]
    cases p n <;> rfl
  intro path hpath
  cases path with
  | nil =>
    rw [hcount, hcount]
    simp only [countP_nil, Nat.zero_add]
    omega
  | cons m rest =>
    obtain ⟨hm, hrest⟩ := isChain_cons_cons.1 hpath
    have hdrop : (n :: m :: rest).dropLast.countP isTemplate =
        (m :: rest).dropLast.countP isTemplate + n.isTemplate.toNat := by
      rw [dropLast_cons_cons, hcount]
    have := hparts m hm rest hrest
    rw [hcount nests, hcount (isElif source), hdrop, Nat.mul_add]
    omega

/-- A node is bounded by the levels with which it has grown. -/
theorem Grown.bounded {tokens : List Token} (h : n.Grown source tokens k) : n.Bounded source k := by
  induction h with
  | @node tokens k l n hparts hmade ih =>
    have hle := hmade.le
    have hlevel := hmade.level
    refine bounded_of_parts ih ?_ ?_ <;>
      · cases hnests : n.nests with
        | false =>
          simp only [Bool.toNat_false]
          omega
        | true =>
          rcases hlevel hnests with hlt | helif
          · simp only [Bool.toNat_true]
            omega
          · simp only [helif, Bool.toNat_true]
            omega
  | template ht hkind hread hparts ih =>
    refine bounded_of_parts (k := maxNesting) (fun m hm => ?_) ?_ ?_
    · obtain ⟨e, he, rfl⟩ := mem_map.1 hm
      obtain ⟨p, hp, rfl⟩ := mem_map.1 he
      exact ih p hp
    · simp [nests]
    · simp only [nests, isTemplate, Bool.toNat_false, Bool.toNat_true]
      omega

end Node

/-! ### Ways down a program -/

/-- A way down from a statement of a program. -/
def Program.Descends (p : Program) (path : List Node) : Prop :=
  ScriptCheck.Descends path ∧ ∀ n ∈ path.head?, n ∈ p.body.map Node.stmt

/-- The way down a tree along the last parts, in at most some steps. -/
def Node.spine : Nat → Node → List Node
  | 0, n => [n]
  | k + 1, n => n :: (n.parts.getLast?.elim [] (spine k))

theorem Node.head?_spine (n : Node) (k : Nat) : (n.spine k).head? = some n := by
  cases k <;> rfl

theorem Node.descends_spine (n : Node) (k : Nat) : ScriptCheck.Descends (n.spine k) := by
  induction k generalizing n with
  | zero => exact .singleton n
  | succ k ih =>
    unfold spine
    cases hlast : n.parts.getLast? with
    | none => exact .singleton n
    | some m =>
      refine (ih m).cons fun c hc => ?_
      rw [head?_spine] at hc
      cases hc
      exact mem_of_getLast? hlast

/-- The way down a program along its last parts. -/
def Program.spine (p : Program) (k : Nat) : List Node :=
  p.body.getLast?.elim [] fun s => (Node.stmt s).spine k

theorem Program.descends_spine (p : Program) (k : Nat) : p.Descends (p.spine k) := by
  unfold spine
  cases hlast : p.body.getLast? with
  | none => exact ⟨.nil, by simp⟩
  | some s =>
    refine ⟨Node.descends_spine _ k, fun n hn => ?_⟩
    rw [Option.elim_some, Node.head?_spine] at hn
    cases hn
    exact mem_map_of_mem (mem_of_getLast? hlast)

/-- On every way down the program of a script, with or without faults, no more statements with
branches or a body stand in each other than the limit allows, if every interpolation has the limit
to itself and the further tests of an `if` with colons are left out. -/
theorem countP_nests_le (mode : LexMode) (source : List Char) {path : List Node}
    (hpath : (parse mode source).program.Descends path) :
    path.countP Node.nests ≤ maxNesting * (1 + path.dropLast.countP Node.isTemplate) +
      path.countP (Node.isElif source) := by
  cases path with
  | nil => exact Nat.zero_le _
  | cons n path =>
    obtain ⟨hchain, hhead⟩ := hpath
    have hgrown := (Parser.passes_readScript mode source).grown n (hhead n rfl)
    have := hgrown.bounded path hchain
    rw [Nat.mul_add, Nat.mul_one]
    exact this

/-- A further test, and an interpolation in which the way down goes on. -/
theorem countP_nests_le_elif_template :
    let source := "if(a): elif(b): else: while(c) `$\x7b()=>\x7bif(d) e;\x7d\x7d`; endif".toList
    let path := (parse .normal source).program.spine 12
    (parse .normal source).errors = [] ∧ path.countP Node.nests = 4 ∧
      path.dropLast.countP Node.isTemplate = 1 ∧ path.countP (Node.isElif source) = 1 ∧
      path.countP Node.nests ≤ maxNesting * (1 + path.dropLast.countP Node.isTemplate) +
        path.countP (Node.isElif source) :=
  ⟨by decide +kernel, by decide +kernel, by decide +kernel, by decide +kernel,
    countP_nests_le .normal _ (Program.descends_spine _ 12)⟩

/-- An `if` with colons and many further tests. -/
def furtherTests (n : Nat) : List Char :=
  "if(1):".toList ++ ((List.replicate n "elif(1):".toList).flatten ++ "endif".toList)

theorem spine_furtherTests :
    let p := parse .normal (furtherTests 128)
    p.errors = [] ∧ (p.program.spine 129).countP Node.isTemplate = 0 ∧
      maxNesting < (p.program.spine 129).countP Node.nests := by
  decide +kernel

/-- As many tests in an interpolation as around it. -/
def testsAround (n : Nat) : List Char :=
  let tests := (List.replicate n "if(1)".toList).flatten
  tests ++ ("`$\x7b()=>\x7b".toList ++ (tests ++ ";\x7d\x7d`;".toList))

/-- A further test cannot be written without its word. -/
theorem Node.mem_of_isElif {source : List Char} {n : Node} (h : n.isElif source) :
    'e' ∈ source := by
  unfold isElif at h
  split at h
  · obtain ⟨front, back, rfl, -⟩ := Text.slice?_eq_some_iff.1 (beq_iff_eq.1 h)
    simp
  · simp at h

theorem spine_testsAround :
    let p := parse .normal (testsAround 65)
    p.errors = [] ∧ (p.program.spine 135).countP (Node.isElif (testsAround 65)) = 0 ∧
      maxNesting < (p.program.spine 135).countP Node.nests := by
  have hdeep : (parse .normal (testsAround 65)).errors = [] ∧
      maxNesting < ((parse .normal (testsAround 65)).program.spine 135).countP Node.nests := by
    decide +kernel
  have hword : 'e' ∉ testsAround 65 := by decide +kernel
  exact ⟨hdeep.1, countP_eq_zero.2 fun n _ h => hword (Node.mem_of_isElif h), hdeep.2⟩

/-- Neither further tests nor interpolations are held to the limit: there are scripts without faults
in which each of them alone leads to more statements in each other. -/
theorem exists_nests_exceed :
    (∃ source path, (parse .normal source).errors = [] ∧
      (parse .normal source).program.Descends path ∧ path.countP Node.isTemplate = 0 ∧
        maxNesting < path.countP Node.nests) ∧
      ∃ source path, (parse .normal source).errors = [] ∧
        (parse .normal source).program.Descends path ∧ path.countP (Node.isElif source) = 0 ∧
          maxNesting < path.countP Node.nests :=
  ⟨⟨furtherTests 128, _, spine_furtherTests.1, Program.descends_spine _ 129, spine_furtherTests.2⟩,
    ⟨testsAround 65, _, spine_testsAround.1, Program.descends_spine _ 135, spine_testsAround.2⟩⟩

end ScriptCheck
