import ScriptCheck.Proofs.DeclaredPlaces
import ScriptCheck.Proofs.Enrolment
import ScriptCheck.Proofs.Gating
import ScriptCheck.Proofs.Paths

/-!
# Names that are declared

The scopes of an analysis are those of the program, and each name that the program declares is
accounted for (`Analysis.exists_register`): it is that of a symbol of its own, in the scope it
belongs to, or it is refused, as another symbol of that scope has the name. Then it is found, once
and where it stands. This is so for each program whose levels of expressions are within the limit.

A function that stands alone is an exception. If its name is declared in the scope already, the name
is neither declared nor found (`Analysis.not_registered_alone`).
-/

namespace ScriptCheck

open List

/-- A name was found to be declared already. -/
def Finding.isRedeclaration : Finding → Bool
  | redeclaration _ => true
  | _ => false

/-- What a symbol is declared as: its name, where this stands, and whether it is only assigned
to. -/
def Symbol.origin (s : Symbol) : String × Span × Bool := (s.name, s.span, s.implicit)

/-! ### Declaring a name -/

namespace SymbolTable

variable {t : SymbolTable} {scope : Nat} {symbol : Symbol}

theorem scope_declare : (t.declare scope symbol).1.scope = scope := by
  unfold declare
  split
  · next h => exact scope_of_find? h
  · rfl

/-- A name is refused for a symbol that has it. -/
theorem symbol?_of_old (h : (t.declare scope symbol).2.1 = false) :
    (t.symbol? (t.declare scope symbol).1).map Symbol.name = some symbol.name := by
  unfold declare at h ⊢
  split at h
  · next hfind =>
    obtain ⟨found, hfound, hname⟩ := name_of_find? hfind
    rw [hfound, Option.map_some, hname]
  · cases h

end SymbolTable

namespace Walk

namespace Fate

/-- The symbol of a name that is declared. -/
def added? : Fate → Option SymbolId
  | added id => some id
  | refused _ | passed _ => none

/-- What is found about a name that is declared. -/
def finding? (name : Ident) : Fate → Option (Located Finding)
  | refused _ => some ⟨name.span, .redeclaration name.name⟩
  | added _ | passed _ => none

variable {t : SymbolTable} {scope : Nat} {symbol : Symbol} {id : SymbolId}

theorem of_eq_added (h : of (t.declare scope symbol) = .added id) :
    (t.declare scope symbol).2.1 = true ∧ (t.declare scope symbol).1 = id := by
  unfold of at h
  split at h
  · next hnew => exact ⟨hnew, added.inj h⟩
  · cases h

theorem of_eq_refused (h : of (t.declare scope symbol) = .refused id) :
    (t.declare scope symbol).2.1 = false ∧ (t.declare scope symbol).1 = id := by
  unfold of at h
  split at h
  · cases h
  · next hnew => exact ⟨Bool.eq_false_iff.mpr hnew, refused.inj h⟩

end Fate

namespace Deed

variable {d : Deed} {scope : Nat} {name : Ident} {id : SymbolId}

/-- The symbol that a deed declares. -/
def added? (d : Deed) : Option SymbolId := d.fate?.bind fun x => x.2.2.added?

/-- A name that a deed refuses. -/
def redeclared? (d : Deed) : Option (Located Finding) := d.fate?.bind fun x => x.2.2.finding? x.2.1

theorem of_added (hfate : d.fate? = some (scope, name, .added id))
    (hplace : d.before.table.hasScope d.place.scope) :
    id.scope = scope ∧ d.before.table.symbol? id = none ∧
      (d.after.table.symbol? id).map Symbol.origin = some (name.name, name.span, false) := by
  rw [d.did.table]
  obtain ⟨ctx, act, s⟩ := d
  cases act with
  | declare x _ _ | declareImport _ x _ _ =>
    obtain ⟨rfl, rfl, hof⟩ : ctx.scope = scope ∧ x = name ∧ _ = Fate.added id := by
      simpa [fate?] using hfate
    obtain ⟨hnew, rfl⟩ := Fate.of_eq_added hof
    refine ⟨SymbolTable.scope_declare, SymbolTable.symbol?_of_new hnew, ?_⟩
    simp only [Act.tableAfter, hnew, if_true, SymbolTable.symbol?_modifySymbol,
      SymbolTable.symbol?_declare_new hplace hnew]
    rfl
  | _ => cases hfate

theorem of_refused (hfate : d.fate? = some (scope, name, .refused id)) :
    id.scope = scope ∧ (d.before.table.symbol? id).map Symbol.name = some name.name := by
  obtain ⟨ctx, act, s⟩ := d
  cases act with
  | declare x _ _ | declareImport _ x _ _ =>
    obtain ⟨rfl, rfl, hof⟩ : ctx.scope = scope ∧ x = name ∧ _ = Fate.refused id := by
      simpa [fate?] using hfate
    obtain ⟨hold, rfl⟩ := Fate.of_eq_refused hof
    exact ⟨SymbolTable.scope_declare, SymbolTable.symbol?_of_old hold⟩
  | _ => cases hfate

theorem redeclared_finding? (d : Deed) :
    (d.act.finding? d.place.scope d.before.table).toList.filter (·.value.isRedeclaration) =
      d.redeclared?.toList := by
  obtain ⟨ctx, act, s⟩ := d
  cases act with
  | read name =>
    simp only [Act.finding?]
    split <;> rfl
  | assign name type =>
    simp only [Act.finding?]
    split
    · split <;> rfl
    · rfl
  | declare name kind type | declareImport source name specifier type =>
    simp only [Act.finding?, redeclared?, fate?, Fate.of]
    split <;> rfl
  | recordFunction name type | countExported name | openScope kind span => rfl

end Deed

/-! ### Declarations of a visit -/

theorem Act.origin_revised {scope : Nat} {t : SymbolTable} {id : SymbolId} {s : Symbol}
    (act : Act) : (act.revised scope t id s).origin = s.origin := by
  unfold revised
  split
  all_goals first | rfl | (split <;> rfl)

namespace Chain

variable {passes : PassSet} {s t : State} {ds : List Deed} {id : SymbolId}
  (h : Chain passes s ds t)
include h

/-- A symbol stays what it is declared as. -/
theorem origin {o : String × Span × Bool}
    (hsymbol : (s.table.symbol? id).map Symbol.origin = some o) :
    (t.table.symbol? id).map Symbol.origin = some o := by
  induction ds generalizing s with
  | nil => rwa [h.table]
  | cons d ds ih =>
    refine ih h.2.2 ?_
    rw [← h.2.1.table] at hsymbol
    obtain ⟨symbol, hbefore, rfl⟩ := Option.map_eq_some_iff.mp hsymbol
    rw [d.did.table, d.act.symbol?_tableAfter hbefore, Option.map_some, d.act.origin_revised]

/-- What follows a deed of a chain makes a chain. -/
theorem of_mem {d : Deed} (hd : d ∈ ds) : ∃ rest, Chain passes d.after rest t := by
  induction ds generalizing s with
  | nil => cases hd
  | cons x ds ih =>
    rcases mem_cons.mp hd with rfl | hd
    · exact ⟨ds, h.2.2⟩
    · exact ih h.2.2 hd

/-- Symbols that are declared are new, and no two of them are the same. -/
theorem nodup_added
    (hplaces : ∀ d ∈ ds, d.fate?.isSome → d.before.table.hasScope d.place.scope) :
    (ds.filterMap Deed.added?).Nodup ∧
      ∀ id ∈ ds.filterMap Deed.added?, s.table.symbol? id = none := by
  induction ds generalizing s with
  | nil => exact ⟨nodup_nil, nofun⟩
  | cons d ds ih =>
    obtain ⟨hplace, hplaces⟩ := forall_mem_cons.mp hplaces
    obtain ⟨hnodup, hnew⟩ := ih h.2.2 hplaces
    have hearlier (id : SymbolId) (hid : d.after.table.symbol? id = none) :
        s.table.symbol? id = none := by
      cases hsymbol : s.table.symbol? id with
      | none => rfl
      | some symbol =>
        rw [← h.2.1.table] at hsymbol
        rw [d.did.table, d.act.symbol?_tableAfter hsymbol] at hid
        cases hid
    have hrest : ∀ id ∈ ds.filterMap Deed.added?, s.table.symbol? id = none :=
      fun id hid => hearlier id (hnew id hid)
    rw [filterMap_cons]
    cases hadded : d.added? with
    | none => exact ⟨hnodup, hrest⟩
    | some id =>
      obtain ⟨⟨scope, name, fate⟩, hfate, hid⟩ := Option.bind_eq_some_iff.mp hadded
      obtain ⟨rfl⟩ : fate = .added id := by
        cases fate with
        | added x => exact congrArg Fate.added (Option.some.inj hid)
        | refused x | passed x => cases hid
      obtain ⟨-, hbefore, hafter⟩ := Deed.of_added hfate (hplace (by rw [hfate]; rfl))
      refine ⟨nodup_cons.mpr ⟨fun hmem => ?_, hnodup⟩, forall_mem_cons.mpr ⟨?_, hrest⟩⟩
      · rw [hnew id hmem] at hafter
        cases hafter
      · rw [← h.2.1.table]
        exact hbefore

theorem redeclared_findings (hpasses : passes.enabled .scopeAnalysis) :
    t.findings.filter (·.value.isRedeclaration) =
      s.findings.filter (·.value.isRedeclaration) ++ ds.filterMap Deed.redeclared? := by
  refine h.filter_findings hpasses (fun f hf => ?_) Deed.redeclared_finding?
  cases f with
  | redeclaration name => exact ⟨rfl, rfl⟩
  | _ => cases hf

theorem frames_table : t.table.scopes.map Scope.frame =
    s.table.scopes.map Scope.frame ++ ds.filterMap Deed.frame? := by
  induction ds generalizing s with
  | nil => simp [h.table]
  | cons d ds ih =>
    rw [ih h.2.2, d.frames_table, ← h.2.1.table, append_assoc, filterMap_cons]
    cases d.frame? <;> rfl

end Chain

namespace Settles

variable {t : SymbolTable} {items : List RosterItem} {ds : List Deed}
  {fates : List (Declaration × Fate)}

/-- What follows from the fates of names, where those that are passed over do not matter, follows
from the deeds. -/
theorem filterMap_eq {β : Type} (h : Settles t items ds fates) {g : Ident → Fate → Option β}
    (hg : ∀ name id, g name (.passed id) = none) :
    fates.filterMap (fun d => g d.1.name d.2) =
      ds.filterMap fun d => d.fate?.bind fun x => g x.2.1 x.2.2 := by
  have hshown : (fates.filterMap shown?).filterMap (fun x => g x.2.1 x.2.2) =
      fates.filterMap fun d => g d.1.name d.2 := by
    rw [filterMap_filterMap]
    refine filterMap_congr fun d _ => ?_
    obtain ⟨d, fate⟩ := d
    cases fate with
    | added id | refused id => rfl
    | passed id => exact (hg d.name id).symm
  rw [← hshown, h.shown, filterMap_filterMap]

/-- A name that is not passed over is declared by a deed. -/
theorem exists_deed (h : Settles t items ds fates) {d : Declaration} {fate : Fate}
    (hmem : (d, fate) ∈ fates) (hshown : shown? (d, fate) = some (d.scope, d.name, fate)) :
    ∃ deed ∈ ds, deed.fate? = some (d.scope, d.name, fate) := by
  have hdeed : (d.scope, d.name, fate) ∈ fates.filterMap shown? :=
    mem_filterMap.mpr ⟨_, hmem, hshown⟩
  rw [h.shown] at hdeed
  exact mem_filterMap.mp hdeed

end Settles

/-- What is found stands at the places of the names. -/
theorem sublist_places (fates : List (Declaration × Fate)) :
    ((fates.filterMap fun d => d.2.finding? d.1.name).map Located.span).Sublist
      (fates.map fun d => d.1.name.span) := by
  induction fates with
  | nil => exact .slnil
  | cons first rest ih =>
    obtain ⟨d, fate⟩ := first
    cases fate with
    | added id | passed id => exact ih.cons _
    | refused id => exact ih.cons_cons _

/-- Of names at different places, each one that is refused is found once at its place. -/
theorem count_refused {fates : List (Declaration × Fate)}
    (hplaces : (fates.map fun d => d.1.name.span).Nodup) {d : Declaration} {id : SymbolId}
    (hmem : (d, .refused id) ∈ fates) :
    ((fates.filterMap fun d => d.2.finding? d.1.name).map Located.span).count d.name.span = 1 := by
  refine count_eq_one_of_mem (hplaces.sublist (sublist_places fates)) ?_
  have hfinding : (⟨d.name.span, .redeclaration d.name.name⟩ : Located Finding) ∈
      fates.filterMap fun d => d.2.finding? d.1.name :=
    mem_filterMap.mpr ⟨(d, .refused id), hmem, rfl⟩
  exact mem_map_of_mem hfinding

end Walk

namespace Analysis

open Walk

variable (fileExists : String → Bool) (program : Program)

/-- All declarations of a program, with what becomes of them in the result of an analysis. -/
structure Register (result : Analysis) (fates : List (Declaration × Fate)) : Prop where
  /-- These are the declarations of the program. -/
  declarations : fates.map Prod.fst = program.declarations fileExists
  /-- The numbers of scopes are those of the program. -/
  frames : result.table.scopes.map Scope.frame = program.frames fileExists
  /-- The name of a symbol stands where it is declared. -/
  added : ∀ d id, (d, .added id) ∈ fates → id.scope = d.scope ∧
    (result.table.symbol? id).map Symbol.origin = some (d.name.name, d.name.span, false)
  /-- Each symbol has one declaration. -/
  nodup : (fates.filterMap fun d => d.2.added?).Nodup
  /-- Each name that is refused is found once. -/
  redeclarations : result.findings.filter (·.value.isRedeclaration) =
    fates.filterMap fun d => d.2.finding? d.1.name
  /-- A name is refused for a symbol of its scope that has it. -/
  refused : ∀ d id, (d, .refused id) ∈ fates → d.alone = false ∧ id.scope = d.scope ∧
    (result.table.symbol? id).map Symbol.name = some d.name.name
  /-- In a script there is one such finding at the place of the name. -/
  once : ∀ mode source, (parse mode source).program = program → ∀ d id, (d, .refused id) ∈ fates →
    ((result.findings.filter (·.value.isRedeclaration)).map Located.span).count d.name.span = 1
  /-- A name is passed over for a symbol of its scope that has it, if it is that of a function that
  stands alone. -/
  passed : ∀ d id, (d, .passed id) ∈ fates → d.alone = true ∧ id.scope = d.scope ∧
    (result.table.symbol? id).map Symbol.name = some d.name.name

/-- Each name that a program declares gets a symbol in its scope, or is found to be declared
already, unless it is that of a function that stands alone and another symbol of the scope has
it. -/
theorem exists_register (passes : PassSet) (hscopes : passes.enabled .scopeAnalysis)
    (hlevels : program.levels ≤ maxNesting) :
    ∃ fates, Register fileExists program (ofProgram passes fileExists program) fates := by
  have hchain : Chain passes (.initial (region program)) _ (visited passes fileExists program) :=
    (follows_trail passes fileExists program).leads.chain
  have hwhole : (trail passes fileExists program).Whole :=
    (charts_trail passes fileExists program).whole.mpr (by omega)
  have henrolled := enrols_trail passes fileExists program hwhole
  obtain ⟨fates, hfates⟩ := henrolled.settles
  have hredeclared : (ofProgram passes fileExists program).findings.filter
      (·.value.isRedeclaration) = fates.filterMap fun d => d.2.finding? d.1.name := by
    rw [hfates.filterMap_eq (g := fun name fate => fate.finding? name) fun _ _ => rfl]
    refine (filter_findings_ofProgram passes fileExists program fun f hf => ?_).trans
      (hchain.redeclared_findings hscopes)
    cases f with
    | redeclaration name => rfl
    | _ => cases hf
  refine ⟨fates, hfates.declarations, ?_, ?_, ?_, hredeclared, ?_, ?_, hfates.passed⟩
  · have hframes := hchain.frames_table
    rw [henrolled.frames] at hframes
    exact hframes
  · intro d id hmem
    obtain ⟨deed, hdeed, hfate⟩ := hfates.exists_deed hmem rfl
    obtain ⟨hscope, -, hsymbol⟩ :=
      Deed.of_added hfate (henrolled.places deed hdeed (by rw [hfate]; rfl))
    obtain ⟨rest, hrest⟩ := hchain.of_mem hdeed
    exact ⟨hscope, hrest.origin hsymbol⟩
  · rw [hfates.filterMap_eq (g := fun _ fate => fate.added?) fun _ _ => rfl]
    exact (hchain.nodup_added henrolled.places).1
  · intro d id hmem
    obtain ⟨deed, hdeed, hfate⟩ := hfates.exists_deed hmem rfl
    obtain ⟨hscope, hname⟩ := Deed.of_refused hfate
    obtain ⟨symbol, hsymbol, hname⟩ := Option.map_eq_some_iff.mp hname
    obtain ⟨final, hfinal, hsame⟩ := (hchain.extends_of_mem hdeed).symbol?_name hsymbol
    refine ⟨hfates.refused d id hmem, hscope, ?_⟩
    rw [← hname, ← hsame]
    exact congrArg (Option.map Symbol.name) hfinal
  · -- in a script, no two names stand at the same place
    rintro mode source rfl d id hmem
    have hplaces := Program.nodup_places fileExists mode source
    rw [Program.declarations, ← hfates.declarations, List.map_map] at hplaces
    rw [hredeclared]
    exact count_refused hplaces hmem

/-- A script that declares two names twice, one of them in a function. -/
def twice : Program :=
  (parse .normal
    "let a; function g(b) \x7b let b; \x7d if (a) function h() \x7b\x7d let a;".toList).program

theorem exists_register_twice :
    PassSet.all.enabled .scopeAnalysis ∧ twice.levels ≤ maxNesting ∧
      ∃ fates, Register (fun _ => false) twice (ofProgram .all (fun _ => false) twice) fates :=
  ⟨by decide +kernel, by decide +kernel,
    exists_register _ _ _ (by decide +kernel) (by decide +kernel)⟩

/-- A script where the name of a function that stands alone is declared before. -/
def aloneAgain : Program :=
  (parse .normal "let f = 1; if (1) function f() \x7b\x7d".toList).program

/-- A function that stands alone, with a name that is declared before, is lost. -/
theorem not_registered_alone :
    ¬∀ d ∈ aloneAgain.declarations (fun _ => false),
      (∃ symbol ∈ (ofProgram .all (fun _ => false) aloneAgain).table.symbols,
        symbol.span = d.name.span) ∨
      ∃ f ∈ (ofProgram .all (fun _ => false) aloneAgain).findings,
        f.value.isRedeclaration = true ∧ f.span = d.name.span := by
  decide +kernel

end Analysis

end ScriptCheck
