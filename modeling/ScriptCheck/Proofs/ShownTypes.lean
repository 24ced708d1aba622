import ScriptCheck.Proofs.UnionLaws
import ScriptCheck.Proofs.UnionTypes

/-!
# Types are told apart by their texts

The text of a type can be read back from left to right: it starts with a word that tells what kind
of type it is (`lead`), and where it ends is told by the character behind it, as a list of
parameters and the alternatives of a union are closed by other characters than those that separate
them (`Closes`, `Stops`). So two types with one text are equal, as long as the names in them are
words (`display_injective`).
-/

namespace ScriptCheck

open List Text

/-! ### Names -/

/-- Letters, digits and underscores, at least one. -/
def IsWord (name : List Char) : Prop := name ≠ [] ∧ ∀ c ∈ name, isWordChar c

namespace Ty

/-- The names that a type has at its top are words; a parameter may have dots in front, and a tag
has one between two words. -/
def WellNamed : Ty → Prop
  | function params _ => ∀ p ∈ params, ∃ word, IsWord word ∧
      (p.toList = word ∨ p.toList = "...".toList ++ word)
  | namespaceOf name => IsWord name.toList
  | resource tag => ∃ first second, IsWord first ∧ IsWord second ∧
      tag.toList = first ++ '.' :: second
  | _ => True

/-- A canonical type with words for names everywhere in it. -/
structure Legible (t : Ty) : Prop where
  canonical : t.Canonical
  named : ∀ u, StandsIn u t → u.WellNamed

/-! ### Texts that end where another starts -/

/-- A character of a name. -/
def inName (c : Char) : Bool := isWordChar c || c == '.'

/-- A text that may stand behind a type or a list of parameters. -/
def Closes (rest : List Char) : Prop := ∀ c ∈ rest.head?, c ∈ ['>', ')']

/-- A text that may stand behind a parameter or an alternative. -/
def Stops (rest : List Char) : Prop := ∀ c ∈ rest.head?, c ∈ ['>', ')', ',', ' ']

variable {rest rest' : List Char} {s t u : Ty}

theorem Closes.stops (h : Closes rest) : Stops rest := fun c hc => by
  rcases mem_pair.1 (h c hc) with rfl | rfl <;> decide

theorem closes_cons {c : Char} (hc : c ∈ ['>', ')']) (rest : List Char) : Closes (c :: rest) := by
  simpa [Closes] using hc

theorem Stops.not_inName (h : Stops rest) : ∀ c ∈ rest.head?, inName c = false := by
  intro c hc
  have hmem := h c hc
  simp only [mem_cons, not_mem_nil, or_false] at hmem
  rcases hmem with rfl | rfl | rfl | rfl <;> decide

theorem append_inj_of_run {p : Char → Bool} {xs ys as bs : List Char} (hxs : ∀ c ∈ xs, p c)
    (hys : ∀ c ∈ ys, p c) (has : ∀ c ∈ as.head?, p c = false) (hbs : ∀ c ∈ bs.head?, p c = false)
    (h : xs ++ as = ys ++ bs) : xs = ys ∧ as = bs := by
  have hrun {xs as : List Char} (hxs : ∀ c ∈ xs, p c) (has : ∀ c ∈ as.head?, p c = false) :
      (xs ++ as).takeWhile p = xs := by
    rw [takeWhile_append_of_pos hxs]
    cases as with
    | nil => simp
    | cons a as => simp [has a rfl]
  have heq : xs = ys := by rw [← hrun hxs has, h, hrun hys hbs]
  exact ⟨heq, append_cancel_left (heq ▸ h)⟩

/-- Behind the first of some texts, the list of them is closed or a separator stands. -/
theorem intercalate_cons_split {α : Type} (f : α → List Char) {sep : List Char}
    (hsep : ∀ rest, Stops (sep ++ rest)) (x : α) (xs : List α) (hrest : Closes rest) :
    ∃ more, sep.intercalate ((x :: xs).map f) ++ rest = f x ++ more ∧ Stops more ∧
      (xs = [] ∧ more = rest ∨ xs ≠ [] ∧ more = sep ++ (sep.intercalate (xs.map f) ++ rest)) := by
  cases xs with
  | nil => exact ⟨rest, by simp, hrest.stops, .inl ⟨rfl, rfl⟩⟩
  | cons y xs => exact ⟨_, by simp, hsep _, .inr ⟨cons_ne_nil _ _, rfl⟩⟩

/-- Lists of texts with a separator between them are equal if the texts are told apart where one
stops, and what closes a list is not the separator. -/
theorem intercalate_inj {α : Type} {f : α → List Char} {sep : List Char}
    (hsep : ∀ rest, Stops (sep ++ rest)) (hne : ∀ rest, ¬ Closes (sep ++ rest)) {xs ys : List α}
    (hinj : ∀ x ∈ xs, ∀ y ∈ ys, ∀ rest rest', Stops rest → Stops rest' →
      f x ++ rest = f y ++ rest' → x = y ∧ rest = rest') (hxs : xs ≠ []) (hys : ys ≠ [])
    (hrest : Closes rest) (hrest' : Closes rest')
    (h : sep.intercalate (xs.map f) ++ rest = sep.intercalate (ys.map f) ++ rest') :
    xs = ys ∧ rest = rest' := by
  induction xs generalizing ys with
  | nil => exact absurd rfl hxs
  | cons x xs ih =>
    obtain ⟨y, ys, rfl⟩ := exists_cons_of_ne_nil hys
    obtain ⟨more, hmore, hstops, hcases⟩ := intercalate_cons_split f hsep x xs hrest
    obtain ⟨more', hmore', hstops', hcases'⟩ := intercalate_cons_split f hsep y ys hrest'
    rw [hmore, hmore'] at h
    obtain ⟨rfl, rfl⟩ := hinj x mem_cons_self y mem_cons_self _ _ hstops hstops' h
    rcases hcases with ⟨rfl, rfl⟩ | ⟨hxs', hend⟩ <;>
      rcases hcases' with ⟨rfl, hend'⟩ | ⟨hys', hend'⟩
    · exact ⟨rfl, hend'⟩
    · exact absurd (hend' ▸ hrest) (hne _)
    · exact absurd (hend.symm.trans hend' ▸ hrest') (hne _)
    · obtain ⟨rfl, hend⟩ := ih (fun x hx y hy => hinj x (mem_cons_of_mem _ hx) y
        (mem_cons_of_mem _ hy)) hxs' hys' (append_cancel_left (hend.symm.trans hend'))
      exact ⟨rfl, hend⟩

/-! ### The parts of a text -/

attribute [local simp] display displayAll

/-- An alternative of a union as it is shown. -/
def item : Ty → List Char
  | function params result => '(' :: (function params result).display.toList ++ [')']
  | t => t.display.toList

theorem toList_display_union (ts : List Ty) :
    (union ts).display.toList = " | ".toList.intercalate (ts.map item) := by
  have hall : (displayAll ts).map String.toList = ts.map item := by
    induction ts with
    | nil => simp
    | cons t ts ih => cases t <;> simp [item, ih]
  rw [display, String.toList_intercalate, hall]

/-- The word at the start of an alternative. -/
def lead : Ty → List Char
  | function _ _ => []
  | array _ => "array".toList
  | namespaceOf _ => "module".toList
  | t => t.display.toList

/-- An alternative without the word at its start. -/
def afterLead : Ty → List Char
  | function params result => item (function params result)
  | array element =>
    if element = unknown then [] else '<' :: (element.display.toList ++ ['>'])
  | namespaceOf name => '(' :: (name.toList ++ [')'])
  | _ => []

theorem item_eq (t : Ty) (h : ∀ ts, t ≠ union ts) : t.item = t.lead ++ t.afterLead := by
  cases t with
  | union ts => exact absurd rfl (h ts)
  | array element => cases element <;> simp [item, lead.eq_def, afterLead]
  | _ => simp [item, lead.eq_def, afterLead]

theorem inName_of_isWord {word : List Char} (h : IsWord word) : ∀ c ∈ word, inName c :=
  fun c hc => by rw [inName, h.2 c hc, Bool.true_or]

theorem inName_lead (h : t.WellNamed) (hunion : ∀ ts, t ≠ union ts) : ∀ c ∈ t.lead, inName c := by
  cases t with
  | union ts => exact absurd rfl (hunion ts)
  | resource tag =>
    obtain ⟨first, second, hfirst, hsecond, htag⟩ := h
    simp only [lead.eq_def, display, htag]
    refine forall_mem_append.2 ⟨inName_of_isWord hfirst, forall_mem_cons.2 ⟨rfl, ?_⟩⟩
    exact inName_of_isWord hsecond
  | _ =>
    simp only [lead.eq_def, display]
    exact all_eq_true.1 (by decide)

theorem not_inName_afterLead (t : Ty) (h : Stops rest) :
    ∀ c ∈ (t.afterLead ++ rest).head?, inName c = false := by
  cases t with
  | array element =>
    rw [afterLead]
    split
    · exact h.not_inName
    · simp only [cons_append, head?_cons, Option.mem_some_iff, forall_eq']
      decide
  | function | namespaceOf =>
    simp only [afterLead, item, cons_append, head?_cons, Option.mem_some_iff, forall_eq']
    decide
  | _ => exact h.not_inName

theorem dot_mem_lead_iff (h : t.WellNamed) (hunion : ∀ ts, t ≠ union ts) :
    '.' ∈ t.lead ↔ ∃ tag, t = resource tag := by
  cases t with
  | union ts => exact absurd rfl (hunion ts)
  | resource tag =>
    obtain ⟨first, second, -, -, htag⟩ := h
    simp [lead.eq_def, htag]
  | _ => simp [lead.eq_def]

/-- The word at the start of an alternative tells what kind of type it is. -/
theorem alike_of_lead (hs : s.WellNamed) (ht : t.WellNamed) (hsu : ∀ ts, s ≠ union ts)
    (htu : ∀ ts, t ≠ union ts) (h : s.lead = t.lead) :
    s = t ∨ (∃ e e', s = array e ∧ t = array e') ∨
      (∃ ps r qs r', s = function ps r ∧ t = function qs r') ∨
      ∃ m n, s = namespaceOf m ∧ t = namespaceOf n := by
  have hresource := dot_mem_lead_iff hs hsu
  rw [h, dot_mem_lead_iff ht htu] at hresource
  cases s <;> cases t <;> simp_all [lead.eq_def, String.toList_inj]

/-! ### Reading texts back -/

/-- The text of a type is not that of another one, whatever closes them. -/
def Recovers (s : Ty) : Prop :=
  ∀ {t : Ty} {rest rest' : List Char}, t.Legible → Closes rest → Closes rest' →
    s.display.toList ++ rest = t.display.toList ++ rest' → s = t ∧ rest = rest'

theorem params_inj {ps qs : List String} (hps : (function ps s).WellNamed)
    (hqs : (function qs t).WellNamed)
    (h : ", ".toList.intercalate (ps.map String.toList) ++ ')' :: rest =
      ", ".toList.intercalate (qs.map String.toList) ++ ')' :: rest') : ps = qs ∧ rest = rest' := by
  have hsep (rest : List Char) : Stops (", ".toList ++ rest) := by simp [Stops]
  have hclosed (rest : List Char) : Closes (')' :: rest) := closes_cons (by decide) rest
  have hname {ps : List String} {s : Ty} (hps : (function ps s).WellNamed) :
      ∀ p ∈ ps, p.toList ≠ [] ∧ ∀ c ∈ p.toList, inName c := by
    intro p hp
    obtain ⟨word, hword, hp | hp⟩ := hps p hp <;> rw [hp]
    · exact ⟨hword.1, inName_of_isWord hword⟩
    · exact ⟨by simp, forall_mem_append.2 ⟨all_eq_true.1 (by decide), inName_of_isWord hword⟩⟩
  -- a parameter does not start with what closes an empty list
  have hempty {ps : List String} {s : Ty} (hps : (function ps s).WellNamed) {rest rest' : List Char}
      (h : ", ".toList.intercalate (ps.map String.toList) ++ ')' :: rest = ')' :: rest') :
      ps = [] := by
    cases ps with
    | nil => rfl
    | cons p ps =>
      obtain ⟨hne, hin⟩ := hname hps p mem_cons_self
      obtain ⟨more, hmore, -⟩ := intercalate_cons_split String.toList hsep p ps (hclosed rest)
      obtain ⟨c, cs, hp⟩ := exists_cons_of_ne_nil hne
      rw [hmore, hp] at h
      exact absurd (hin c (hp ▸ mem_cons_self)) (by rw [(cons.inj h).1]; decide)
  by_cases hnil : ps = [] ∨ qs = []
  · obtain ⟨rfl, rfl⟩ : ps = [] ∧ qs = [] := by
      rcases hnil with rfl | rfl
      · exact ⟨rfl, hempty hqs h.symm⟩
      · exact ⟨hempty hps h, rfl⟩
    exact ⟨rfl, (cons.inj h).2⟩
  · obtain ⟨hps', hqs'⟩ := not_or.1 hnil
    have hinj (p : String) (hp : p ∈ ps) (q : String) (hq : q ∈ qs) (rest rest' : List Char)
        (hrest : Stops rest) (hrest' : Stops rest') (h : p.toList ++ rest = q.toList ++ rest') :
        p = q ∧ rest = rest' :=
      (append_inj_of_run (hname hps p hp).2 (hname hqs q hq).2 hrest.not_inName
        hrest'.not_inName h).imp_left String.toList_inj.1
    obtain ⟨rfl, hend⟩ := intercalate_inj hsep (by simp [Closes]) hinj hps' hqs' (hclosed rest)
      (hclosed rest') h
    exact ⟨rfl, (cons.inj hend).2⟩

theorem Legible.result {ps : List String} (h : (function ps t).Legible) : t.Legible :=
  ⟨h.canonical, fun u hu => h.named u (.result hu)⟩

theorem function_inj {ps qs : List String} (hs : s.Recovers) (hps : (function ps s).WellNamed)
    (ht : (function qs t).Legible) (hrest : Closes rest) (hrest' : Closes rest')
    (h : (function ps s).display.toList ++ rest = (function qs t).display.toList ++ rest') :
    function ps s = function qs t ∧ rest = rest' := by
  simp only [display, String.toList_append, String.toList_intercalate, append_assoc] at h
  obtain ⟨rfl, hresult⟩ := params_inj hps (ht.named _ .self) (append_cancel_left h)
  obtain ⟨rfl, hend⟩ := hs ht.result hrest hrest' (append_cancel_left hresult)
  exact ⟨rfl, hend⟩

theorem Legible.element (h : (array t).Legible) : t.Legible :=
  ⟨h.canonical, fun u hu => h.named u (.element hu)⟩

theorem item_inj (hs : s.WellNamed) (ht : t.Legible) (hsu : ∀ ts, s ≠ union ts)
    (htu : ∀ ts, t ≠ union ts) (harray : ∀ e, s = array e → e.Recovers)
    (hfunction : ∀ ps r, s = function ps r → r.Recovers) (hrest : Stops rest)
    (hrest' : Stops rest') (h : s.item ++ rest = t.item ++ rest') : s = t ∧ rest = rest' := by
  rw [item_eq s hsu, item_eq t htu, append_assoc, append_assoc] at h
  have htn := ht.named t .self
  obtain ⟨hlead, hafter⟩ := append_inj_of_run (inName_lead hs hsu) (inName_lead htn htu)
    (not_inName_afterLead s hrest) (not_inName_afterLead t hrest') h
  rcases alike_of_lead hs htn hsu htu hlead with rfl | ⟨e, e', rfl, rfl⟩ | ⟨ps, r, qs, r', rfl, rfl⟩ |
    ⟨m, n, rfl, rfl⟩
  · exact ⟨rfl, append_cancel_left hafter⟩
  · have hopen (rest : List Char) : ¬ Stops ('<' :: rest) := by simp [Stops]
    simp only [afterLead] at hafter
    split_ifs at hafter with he he' <;> simp only [nil_append, cons_append, append_assoc] at hafter
    · exact ⟨by rw [he, he'], hafter⟩
    · exact absurd (hafter ▸ hrest) (hopen _)
    · exact absurd (hafter ▸ hrest') (hopen _)
    · obtain ⟨rfl, hend⟩ := harray e rfl ht.element (closes_cons (by decide) _)
        (closes_cons (by decide) _) (cons.inj hafter).2
      exact ⟨rfl, (cons.inj hend).2⟩
  · simp only [afterLead, item, cons_append, append_assoc] at hafter
    obtain ⟨heq, hend⟩ := function_inj (hfunction ps r rfl) hs ht (closes_cons (by decide) _)
      (closes_cons (by decide) _) (cons.inj hafter).2
    exact ⟨heq, (cons.inj hend).2⟩
  · simp only [afterLead, cons_append, append_assoc] at hafter
    obtain ⟨heq, hend⟩ := append_inj_of_run (inName_of_isWord hs) (inName_of_isWord htn)
      (closes_cons (by decide) _).stops.not_inName (closes_cons (by decide) _).stops.not_inName
      (cons.inj hafter).2
    exact ⟨congrArg namespaceOf (String.toList_inj.1 heq), (cons.inj hend).2⟩

theorem toList_display (h : ∀ ps r, t ≠ function ps r) :
    t.display.toList = " | ".toList.intercalate (t.alternatives.map item) := by
  cases t with
  | union ts => exact toList_display_union ts
  | function ps r => exact absurd rfl (h ps r)
  | _ => simp [alternatives, item]

theorem Legible.of_mem_alternatives (h : t.Legible) (hmem : u ∈ t.alternatives) :
    u.Legible ∧ ∀ ts, u ≠ union ts := by
  cases t with
  | union ts =>
    obtain ⟨halternative, hcanonical⟩ := canonicalAll_iff.1 h.canonical.2.2 u hmem
    refine ⟨⟨hcanonical, fun v hv => h.named v (.alternative hmem hv)⟩, ?_⟩
    rintro ts rfl
    exact halternative
  | _ =>
    obtain rfl := mem_singleton.1 hmem
    exact ⟨h, nofun⟩

theorem sizeOf_le_of_mem_alternatives (h : u ∈ t.alternatives) : sizeOf u ≤ sizeOf t := by
  cases t with
  | union ts =>
    have hlt : sizeOf u < sizeOf ts := sizeOf_lt_of_mem h
    simp only [union.sizeOf_spec]
    omega
  | _ =>
    exact Nat.le_of_eq (congrArg sizeOf (mem_singleton.1 h))

/-- An alternative does not start as a function does. -/
theorem function_ne_display {ps : List String} {r : Ty} (ht : t.Legible)
    (h : ∀ ps r, t ≠ function ps r) (hrest' : Closes rest') :
    (function ps r).display.toList ++ rest ≠ t.display.toList ++ rest' := by
  intro heq
  obtain ⟨a, as, has⟩ := exists_cons_of_ne_nil (ne_nil_alternatives ht.canonical)
  obtain ⟨ha, hau⟩ := ht.of_mem_alternatives (has ▸ mem_cons_self)
  have hsep (rest : List Char) : Stops (" | ".toList ++ rest) := by simp [Stops]
  obtain ⟨more, hmore, hstops, -⟩ := intercalate_cons_split item hsep a as hrest'
  rw [toList_display h, has, hmore, item_eq a hau, append_assoc] at heq
  have hfunction : (function ps r).display.toList ++ rest = "function".toList ++
      '(' :: (", ".toList.intercalate (ps.map String.toList) ++ "): ".toList ++ r.display.toList ++
        rest) := by simp
  have hlead := (append_inj_of_run (all_eq_true.1 (by decide)) (inName_lead (ha.named a .self) hau)
    (by rintro _ ⟨⟩; decide) (not_inName_afterLead a hstops) (hfunction.symm.trans heq)).1
  have hresource := dot_mem_lead_iff (ha.named a .self) hau
  rw [← hlead] at hresource
  cases a <;> simp_all [lead.eq_def]

theorem recovers_of_smaller (hs : s.Legible)
    (ih : ∀ u : Ty, u.Legible → sizeOf u < sizeOf s → u.Recovers) : s.Recovers := by
  intro t rest rest' ht hrest hrest' h
  by_cases hsf : ∃ ps r, s = function ps r
  · obtain ⟨ps, r, rfl⟩ := hsf
    by_cases htf : ∃ qs r', t = function qs r'
    · obtain ⟨qs, r', rfl⟩ := htf
      exact function_inj (ih r hs.result (by simp only [function.sizeOf_spec]; omega))
        (hs.named _ .self) ht hrest hrest' h
    · exact absurd h (function_ne_display ht (by simpa using htf) hrest')
  · by_cases htf : ∃ qs r', t = function qs r'
    · obtain ⟨qs, r', rfl⟩ := htf
      exact absurd h.symm (function_ne_display hs (by simpa using hsf) hrest)
    · rw [toList_display (by simpa using hsf), toList_display (by simpa using htf)] at h
      have hinj (a : Ty) (ha : a ∈ s.alternatives) (b : Ty) (hb : b ∈ t.alternatives)
          (rest rest' : List Char) (hrest : Stops rest) (hrest' : Stops rest')
          (h : a.item ++ rest = b.item ++ rest') : a = b ∧ rest = rest' := by
        obtain ⟨hal, hau⟩ := hs.of_mem_alternatives ha
        obtain ⟨hbl, hbu⟩ := ht.of_mem_alternatives hb
        have hsize := sizeOf_le_of_mem_alternatives ha
        refine item_inj (hal.named a .self) hbl hau hbu ?_ ?_ hrest hrest' h
        · rintro e rfl
          exact ih e hal.element (Nat.lt_of_lt_of_le (by simp) hsize)
        · rintro ps r rfl
          exact ih r hal.result (Nat.lt_of_lt_of_le (by simp only [function.sizeOf_spec]; omega) hsize)
      obtain ⟨heq, hend⟩ := intercalate_inj (by simp [Stops]) (by simp [Closes]) hinj
        (ne_nil_alternatives hs.canonical) (ne_nil_alternatives ht.canonical) hrest hrest' h
      exact ⟨eq_of_alternatives_eq hs.canonical ht.canonical heq, hend⟩

theorem Legible.recovers (s : Ty) (hs : s.Legible) : s.Recovers :=
  recovers_of_smaller hs fun u hu _ => recovers u hu
termination_by sizeOf s

/-- Types are equal if they have the same text. -/
theorem display_injective (hs : s.Legible) (ht : t.Legible) (h : s.display = t.display) : s = t := by
  have hclosed : Closes [] := by simp [Closes]
  exact (hs.recovers s ht hclosed hclosed (congrArg (String.toList · ++ []) h)).1

theorem display_injective_function :
    let s := function ["...a"] ((resource "fs.file").join null)
    let t := function ["...a"] (union [resource "fs.file", null])
    s.Legible ∧ t.Legible ∧ s.display = t.display ∧ s = t := by
  have hlegible : (function ["...a"] (union [resource "fs.file", null])).Legible := by
    refine ⟨by simp [IsAlternative], ?_⟩
    rintro u hu
    cases hu with
    | self => exact fun p hp => ⟨['a'], by simp [IsWord, isWordChar]; decide, .inr (by simp_all)⟩
    | result hu =>
      cases hu with
      | self => trivial
      | alternative ha hu =>
        simp at ha
        rcases ha with rfl | rfl <;> cases hu
        · exact ⟨['f', 's'], "file".toList, by simp [IsWord]; decide, by simp [IsWord]; decide, by simp⟩
        · trivial
  exact ⟨hlegible, hlegible, by decide, display_injective hlegible hlegible (by decide)⟩

end Ty

end ScriptCheck
