import ScriptCheck.Analysis.Pass
import ScriptCheck.Proofs.Positions

/-!
# What lists of passes say

The items of a list (`Listing`) and what an item switches (`Switches`) are described apart from the
functions that read them. A pass is as the last item about it says (`Decides`), and the first item
that is about no pass is the error (`FirstUnknown`).
-/

namespace ScriptCheck

open List Text

/-! ### Items -/

namespace Text

/-- The pieces of a text between the occurrences of a separator. -/
inductive Pieces (sep : Char) : List Char → List (List Char) → Prop where
  | last {piece : List Char} (h : sep ∉ piece) : Pieces sep piece [piece]
  | more {piece rest : List Char} {pieces : List (List Char)} (h : sep ∉ piece)
      (hrest : Pieces sep rest pieces) : Pieces sep (piece ++ sep :: rest) (piece :: pieces)

/-- A text without the blanks around it. -/
structure Trims (text core : List Char) : Prop where
  split : ∃ before after, text = before ++ core ++ after ∧ before.all isBlank ∧ after.all isBlank
  first : ∀ c ∈ core.head?, ¬ isBlank c
  last : ∀ c ∈ core.getLast?, ¬ isBlank c

variable {sep : Char} {text core front : List Char} {pieces : List (List Char)}

theorem pieces_iff : Pieces sep text pieces ↔ pieces = splitAtChar sep text := by
  constructor
  · intro h
    induction h with
    | last h => exact (splitAtChar_of_notMem h).symm
    | more h _ ih => rw [splitAtChar_append h, ih]
  · rintro rfl
    induction text using pieces_rule sep with
    | hpiece piece h =>
      rw [splitAtChar_of_notMem h]
      exact .last h
    | hmore first rest h ih =>
      rw [splitAtChar_append h]
      exact .more h ih

theorem dropWhile_isBlank (hfront : front.all isBlank) (hcore : ∀ c ∈ core.head?, ¬ isBlank c) :
    (front ++ core).dropWhile isBlank = core := by
  rw [dropWhile_append_of_pos (all_eq_true.1 hfront)]
  cases core with
  | nil => rfl
  | cons c cs => exact dropWhile_cons_of_neg (hcore c rfl)

theorem not_isBlank_head?_dropWhile (text : List Char) :
    ∀ c ∈ (text.dropWhile isBlank).head?, ¬ isBlank c := by
  intro c hc hblank
  have hfalse := head?_dropWhile_not isBlank text
  rw [Option.mem_def.1 hc] at hfalse
  exact absurd hblank (by simpa using hfalse)

theorem trims_trim (text : List Char) : Trims text (trim text) := by
  obtain ⟨rest, hrest⟩ : ∃ rest, rest = text.dropWhile isBlank := ⟨_, rfl⟩
  have hlead : text.takeWhile isBlank ++ rest = text := hrest ▸ takeWhile_append_dropWhile
  have htrail : trim text ++ (rest.reverse.takeWhile isBlank).reverse = rest := by
    rw [trim, ← hrest, ← reverse_append, takeWhile_append_dropWhile, reverse_reverse]
  refine ⟨⟨text.takeWhile isBlank, (rest.reverse.takeWhile isBlank).reverse, ?_, ?_, ?_⟩, ?_, ?_⟩
  · rw [append_assoc, htrail, hlead]
  · exact all_takeWhile
  · rw [all_reverse]
    exact all_takeWhile
  · intro c hc
    refine not_isBlank_head?_dropWhile text c ?_
    rw [← hrest, ← htrail, head?_append, Option.mem_def.1 hc]
    rfl
  · intro c hc
    rw [trim, getLast?_reverse] at hc
    exact not_isBlank_head?_dropWhile _ c hc

theorem trims_iff : Trims text core ↔ core = trim text := by
  refine ⟨?_, fun h => h ▸ trims_trim text⟩
  rintro ⟨⟨before, after, rfl, hbefore, hafter⟩, hfirst, hlast⟩
  have htrail : (core ++ after).reverse.dropWhile isBlank = core.reverse := by
    rw [reverse_append]
    exact dropWhile_isBlank (by rwa [all_reverse]) (by simpa using hlast)
  rw [trim, append_assoc]
  cases core with
  | nil =>
    have hall : (before ++ after).all isBlank := by rw [all_append, hbefore, hafter]; rfl
    have hnone : (before ++ after ++ []).dropWhile isBlank = [] := dropWhile_isBlank hall nofun
    rw [append_nil] at hnone
    rw [nil_append, hnone]
    rfl
  | cons c cs =>
    rw [dropWhile_isBlank hbefore (by simpa using hfirst), htrail, reverse_reverse]

end Text

/-- The items of a list in order: what the pieces between its commas hold apart from blanks. -/
def PassSet.Listing (text : List Char) (items : List (List Char)) : Prop :=
  ∃ pieces cores, Pieces ',' text pieces ∧ Forall₂ Trims pieces cores ∧
    items = cores.filter (· ≠ [])

theorem forall₂_trims_iff {pieces cores : List (List Char)} :
    Forall₂ Trims pieces cores ↔ cores = pieces.map trim := by
  constructor
  · intro h
    induction h with
    | nil => rfl
    | cons h _ ih => rw [trims_iff.1 h, ih, map_cons]
  · rintro rfl
    induction pieces with
    | nil => exact .nil
    | cons piece pieces ih => exact .cons (trims_trim piece) ih

theorem PassSet.listing_iff {text : List Char} {items : List (List Char)} :
    Listing text items ↔ items = PassSet.items text := by
  simp only [Listing, pieces_iff, forall₂_trims_iff, PassSet.items]
  simp

/-! ### What items say -/

/-- The names that a pass has in lists. -/
def Pass.names : Pass → List String
  | typeChecking => ["types", "type-checking"]
  | scopeAnalysis => ["scopes", "scope-analysis"]
  | controlFlow => ["control-flow"]
  | unusedVariables => ["unused", "unused-variables"]
  | shadowing => ["shadowing"]

/-- An item of a list switches a pass on or off. -/
inductive Switches (pass : Pass) : List Char → Bool → Prop where
  | none : Switches pass "none".toList false
  | on {name : String} (h : name ∈ "all" :: pass.names) : Switches pass name.toList true
  | off {name : String} (h : name ∈ "all" :: pass.names) :
    Switches pass ("no-".toList ++ name.toList) false

/-- An item that is about some pass. -/
def Known (item : List Char) : Prop := ∃ pass on, Switches pass item on

/-- The last of some items that is about a pass switches it, or else it stays as it was. -/
def Decides (items : List (List Char)) (pass : Pass) (start on : Bool) : Prop :=
  (∃ before item after, items = before ++ item :: after ∧ Switches pass item on ∧
    ∀ later ∈ after, ∀ on, ¬ Switches pass later on) ∨
  on = start ∧ ∀ item ∈ items, ∀ on, ¬ Switches pass item on

/-- A name is the first of some items that is about no pass, without the `no-` in front of it. -/
def FirstUnknown (items : List (List Char)) (name : List Char) : Prop :=
  ∃ before item after, items = before ++ item :: after ∧ (∀ earlier ∈ before, Known earlier) ∧
    ¬ Known item ∧ (item = "no-".toList ++ name ∨ item = name ∧ ¬ "no-".toList <+: item)

variable {items : List (List Char)} {item name : List Char} {pass : Pass} {on : Bool}

theorem ofName?_toList_iff {name : String} :
    Pass.ofName? name.toList = some pass ↔ name ∈ pass.names := by
  simp only [Pass.ofName?, String.toList_inj]
  constructor
  · intro h
    split_ifs at h with h₁ h₂ h₃ h₄ h₅ <;> obtain rfl := Option.some.inj h <;> simp [Pass.names, *]
  · intro h
    cases pass <;> simp only [Pass.names, mem_cons, not_mem_nil, or_false] at h <;>
      rcases h with rfl | rfl <;> decide

theorem polarity_spec (item : List Char) :
    (∃ name, item = "no-".toList ++ name ∧ PassChange.polarity item = (name, false)) ∨
      ¬ "no-".toList <+: item ∧ PassChange.polarity item = (item, true) := by
  unfold PassChange.polarity
  split
  · exact .inl ⟨_, rfl, rfl⟩
  · refine .inr ⟨?_, rfl⟩
    rintro ⟨name, rfl⟩
    rename_i h
    exact h name rfl

/-- How a change leaves a pass, if it is about the pass. -/
def PassChange.on? (pass : Pass) : PassChange → Option Bool
  | every on => some on
  | one other on => if pass = other then some on else none

theorem PassChange.enabled_apply (s : PassSet) (change : PassChange) (pass : Pass) :
    (change.apply s).enabled pass = (change.on? pass).getD (s.enabled pass) := by
  cases change with
  | every on => cases pass <;> rfl
  | one other on =>
    rw [apply, PassSet.enabled_set, on?]
    split <;> rfl

theorem ofItem_of_switches (h : Switches pass item on) :
    ∃ change, PassChange.ofItem item = .ok change ∧ change.on? pass = some on := by
  cases h with
  | none => exact ⟨.every false, rfl, rfl⟩
  | on h | off h =>
    cases pass <;> simp only [Pass.names, mem_cons, not_mem_nil, or_false] at h <;>
      rcases h with rfl | rfl | rfl <;> exact ⟨_, rfl, rfl⟩

/-- What an item stands for: nothing but its name without the `no-` decides. -/
theorem ofItem_spec (item : List Char) : item = "none".toList ∨ ∃ name on,
    (on = false ∧ item = "no-".toList ++ name ∨ on = true ∧ item = name ∧ ¬ "no-".toList <+: item) ∧
    PassChange.ofItem item = if name = "all".toList then .ok (.every on) else
      (Pass.ofName? name).elim (.error ⟨name⟩) fun pass => .ok (.one pass on) := by
  refine (em _).imp_right fun hnone => ?_
  rcases polarity_spec item with ⟨name, hitem, hpolarity⟩ | ⟨hplain, hpolarity⟩
  · refine ⟨name, false, .inl ⟨rfl, hitem⟩, ?_⟩
    simp only [PassChange.ofItem, if_neg hnone, hpolarity]
    cases Pass.ofName? name <;> rfl
  · refine ⟨item, true, .inr ⟨rfl, rfl, hplain⟩, ?_⟩
    simp only [PassChange.ofItem, if_neg hnone, hpolarity]
    cases Pass.ofName? item <;> rfl

theorem switches_of_ofItem {change : PassChange} (h : PassChange.ofItem item = .ok change)
    (hon : change.on? pass = some on) : Switches pass item on := by
  rcases ofItem_spec item with rfl | ⟨name, on', hitem, heq⟩
  · obtain rfl : .every false = change := Except.ok.inj h
    obtain rfl : false = on := Option.some.inj hon
    exact .none
  · suffices hname : on' = on ∧ ∃ n ∈ "all" :: pass.names, n.toList = name by
      obtain ⟨rfl, n, hn, rfl⟩ := hname
      rcases hitem with ⟨rfl, rfl⟩ | ⟨rfl, rfl, -⟩
      · exact .off hn
      · exact .on hn
    rw [heq] at h
    split_ifs at h with hall
    · obtain rfl : .every on' = change := Except.ok.inj h
      exact ⟨Option.some.inj hon, "all", mem_cons_self, hall.symm⟩
    · cases hother : Pass.ofName? name with
      | some other =>
        rw [hother] at h
        obtain rfl : .one other on' = change := Except.ok.inj h
        obtain ⟨rfl, hsame⟩ : pass = other ∧ on' = on := by simpa [PassChange.on?] using hon
        refine ⟨hsame, String.ofList name, mem_cons_of_mem _ (ofName?_toList_iff.1 ?_), ?_⟩
        · rwa [String.toList_ofList]
        · exact String.toList_ofList
      | none =>
        rw [hother] at h
        cases h

theorem switches_iff {change : PassChange} (h : PassChange.ofItem item = .ok change) :
    Switches pass item on ↔ change.on? pass = some on := by
  refine ⟨fun hswitches => ?_, switches_of_ofItem h⟩
  obtain ⟨change', h', hon⟩ := ofItem_of_switches hswitches
  rwa [Except.ok.inj (h.symm.trans h')]

theorem known_iff : Known item ↔ ∃ change, PassChange.ofItem item = .ok change := by
  constructor
  · rintro ⟨pass, on, h⟩
    obtain ⟨change, hchange, -⟩ := ofItem_of_switches h
    exact ⟨change, hchange⟩
  · rintro ⟨change, h⟩
    cases change with
    | every on => exact ⟨.shadowing, on, (switches_iff h).2 rfl⟩
    | one pass on => exact ⟨pass, on, (switches_iff h).2 (if_pos rfl)⟩

theorem name_of_error {e : PassChange.Unknown} (h : PassChange.ofItem item = .error e) :
    item = "no-".toList ++ e.name ∨ item = e.name ∧ ¬ "no-".toList <+: item := by
  rcases ofItem_spec item with rfl | ⟨name, on, hitem, heq⟩
  · cases h
  · obtain rfl : name = e.name := by
      rw [heq] at h
      split_ifs at h
      cases hother : Pass.ofName? name with
      | some other =>
        rw [hother] at h
        cases h
      | none =>
        rw [hother] at h
        exact congrArg PassChange.Unknown.name (Except.error.inj h)
    exact hitem.imp And.right And.right

/-! ### Lists -/

/-- The items of a list up to its end, or up to the first one that is an error. -/
theorem mapM_ofItem (items : List (List Char)) :
    (∃ changes, items.mapM PassChange.ofItem = .ok changes ∧
      Forall₂ (fun item change => PassChange.ofItem item = .ok change) items changes) ∨
    ∃ e, items.mapM PassChange.ofItem = .error e ∧ FirstUnknown items e.name := by
  induction items with
  | nil => exact .inl ⟨[], rfl, .nil⟩
  | cons item items ih =>
    rw [mapM_cons]
    cases hitem : PassChange.ofItem item with
    | error e =>
      have hunknown : ¬ Known item := by simp [known_iff, hitem]
      exact .inr ⟨e, rfl, [], item, items, rfl, nofun, hunknown, name_of_error hitem⟩
    | ok change =>
      rcases ih with ⟨changes, hmap, hall⟩ | ⟨e, hmap, before, x, after, rfl, hbefore, hx⟩
      · rw [hmap]
        exact .inl ⟨change :: changes, rfl, .cons hitem hall⟩
      · rw [hmap]
        refine .inr ⟨e, rfl, item :: before, x, after, rfl, ?_, hx⟩
        exact forall_mem_cons.2 ⟨known_iff.2 ⟨change, hitem⟩, hbefore⟩

section

variable {changes : List PassChange}
  (h : Forall₂ (fun item change => PassChange.ofItem item = .ok change) items changes)
include h

theorem known_of_forall₂ : ∀ item ∈ items, Known item := by
  induction h with
  | nil => exact nofun
  | cons hitem _ ih => exact forall_mem_cons.2 ⟨known_iff.2 ⟨_, hitem⟩, ih⟩

theorem decides_foldl (s : PassSet) (pass : Pass) :
    Decides items pass (s.enabled pass) ((changes.foldl PassChange.apply s).enabled pass) := by
  induction h generalizing s with
  | nil => exact .inr ⟨rfl, nofun⟩
  | @cons item change items changes hitem _ ih =>
    rw [foldl_cons]
    rcases ih (change.apply s) with ⟨before, x, after, rfl, hx⟩ | ⟨hon, hnone⟩
    · exact .inl ⟨item :: before, x, after, rfl, hx⟩
    · rw [hon, PassChange.enabled_apply]
      cases hchange : change.on? pass with
      | some on => exact .inl ⟨[], item, items, rfl, (switches_iff hitem).2 hchange, hnone⟩
      | none =>
        refine .inr ⟨rfl, forall_mem_cons.2 ⟨fun on hswitches => ?_, hnone⟩⟩
        simp [(switches_iff hitem).1 hswitches] at hchange

end

theorem not_known_of_firstUnknown (h : FirstUnknown items name) : ¬ ∀ item ∈ items, Known item := by
  obtain ⟨before, item, after, rfl, -, hitem, -⟩ := h
  exact fun hall => hitem (hall item (mem_append_right _ mem_cons_self))

/-- A list is read exactly if all its items are about passes, and the last item about a pass then
says whether it is on. Otherwise the first item that is about no pass is the error. -/
theorem read_spec (text : List Char) :
    ∃ items, (∀ listed, PassSet.Listing text listed ↔ listed = items) ∧
      ((∃ set, PassSet.read text = .ok set) ↔ ∀ item ∈ items, Known item) ∧
      (∀ set, PassSet.read text = .ok set → ∀ pass, Decides items pass true (set.enabled pass)) ∧
      ∀ e, PassSet.read text = .error e → FirstUnknown items e.name := by
  refine ⟨PassSet.items text, fun _ => PassSet.listing_iff, ?_⟩
  rw [PassSet.read]
  rcases mapM_ofItem (PassSet.items text) with ⟨changes, hmap, hall⟩ | ⟨e, hmap, hfirst⟩
  · rw [hmap]
    refine ⟨⟨fun _ => known_of_forall₂ hall, fun _ => ⟨_, rfl⟩⟩, ?_, nofun⟩
    intro set h pass
    obtain rfl := Except.ok.inj h
    have hstart : PassSet.all.enabled pass = true := by cases pass <;> rfl
    exact hstart ▸ decides_foldl hall .all pass
  · rw [hmap]
    refine ⟨⟨nofun, fun hknown => absurd hknown (not_known_of_firstUnknown hfirst)⟩, nofun, ?_⟩
    intro e' h
    rwa [← Except.error.inj h]

end ScriptCheck
