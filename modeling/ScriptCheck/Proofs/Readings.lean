import ScriptCheck.Proofs.Gating
import ScriptCheck.Proofs.Ledger
import ScriptCheck.Proofs.Paths

/-!
# Names that are read

Each name that a program reads is looked up once, in the order of the visit, and what it stands for
is accounted for: a symbol gets one more use and one more read, a name of the language is left
alone, and any other name is found undefined, where it stands (`Analysis.reckoning_ofProgram`). This
is so for each program whose levels of expressions are within the limit. Further inside, nothing is
looked up (`Analysis.whole_trail_iff`), although such a script may be read without errors.
-/

namespace ScriptCheck

namespace Walk

variable (ds : List Deed)

/-- The names of the readings are those that deeds read. -/
theorem map_fst_reading? :
    (ds.filterMap Deed.reading?).map Prod.fst = ds.filterMap Deed.readName? := by
  rw [List.map_filterMap]
  congr
  funext d
  obtain ⟨ctx, act, s⟩ := d
  cases act <;> rfl

/-- A use is counted for a name that is read and for one that is exported. -/
theorem countP_counts (id : SymbolId) : ds.countP (·.counts == some id) =
    (ds.filterMap Deed.reading?).countP (·.2 == .symbol id) +
      (ds.filterMap Deed.exported?).count id := by
  induction ds with
  | nil => rfl
  | cons d ds ih =>
    rw [List.countP_cons, ih, List.filterMap_cons, List.filterMap_cons]
    obtain ⟨ctx, act, s⟩ := d
    cases act with
    | read name =>
      have hsymbol : Outcome.of s.table ctx.scope name.name = .symbol id ↔ _ :=
        Outcome.of_eq_symbol
      by_cases hid : s.table.lookup name.name ctx.scope = some id
      · simp [Deed.reading?, Deed.exported?, Deed.counts, Act.counts, hid, hsymbol.mpr hid]
        omega
      · simp [Deed.reading?, Deed.exported?, Deed.counts, Act.counts, hid, mt hsymbol.mp hid]
    | countExported name =>
      cases hfound : s.table.lookup name.name ctx.scope with
      | none => simp [Deed.reading?, Deed.exported?, Deed.counts, Act.counts, hfound]
      | some x =>
        by_cases hid : x = id
        · simp [Deed.reading?, Deed.exported?, Deed.counts, Act.counts, hfound, hid]
          omega
        · simp [Deed.reading?, Deed.exported?, Deed.counts, Act.counts, hfound, hid]
    | _ => rfl

/-- The finding of a name that stands for nothing. -/
def undefinedFinding? : Ident × Outcome → Option (Located Finding)
  | (name, .undefined) => some ⟨name.span, .undefinedVariable name.name⟩
  | _ => none

theorem filterMap_undefined? : ds.filterMap Deed.undefined? =
    (ds.filterMap Deed.reading?).filterMap undefinedFinding? := by
  rw [List.filterMap_filterMap]
  congr
  funext d
  unfold Deed.undefined?
  cases d.reading? with
  | none => rfl
  | some reading =>
    obtain ⟨name, outcome⟩ := reading
    cases outcome <;> rfl

end Walk

namespace Analysis

open Walk

variable (passes : PassSet) (fileExists : String → Bool) (program : Program)

/-- The checks of declarations find no name undefined. -/
theorem undefined_findings_ofProgram :
    (ofProgram passes fileExists program).findings.filter (·.value.isUndefined) =
      (visited passes fileExists program).findings.filter (·.value.isUndefined) := by
  refine filter_findings_ofProgram passes fileExists program fun f hf => ?_
  cases f with
  | undefinedVariable name => rfl
  | _ => cases hf

/-- What the names that a program reads stand for, in the order of the visit. -/
def readings : List (Ident × Outcome) :=
  (trail passes fileExists program).deeds.filterMap Deed.reading?

/-- All readings of names are accounted for in the result of an analysis. -/
structure Reckoning (result : Analysis) : Prop where
  /-- The names are those that the program reads. -/
  names : (readings passes fileExists program).map Prod.fst = program.reads
  /-- The uses are those of the names that are read or assigned and stand for a symbol. -/
  references : result.table.references =
    (trail passes fileExists program).deeds.filterMap Deed.reference?
  /-- A symbol is read as often as it is read by name or exported. -/
  reads : ∀ id, result.table.readsOf id =
    (readings passes fileExists program).countP (·.2 == .symbol id) +
      ((trail passes fileExists program).deeds.filterMap Deed.exported?).count id
  /-- A name that stands for nothing is found where it stands. -/
  undefined : result.findings.filter (·.value.isUndefined) =
    (readings passes fileExists program).filterMap undefinedFinding?
  /-- A symbol that a name stands for has the name. -/
  symbols : ∀ name id, (name, .symbol id) ∈ readings passes fileExists program →
    ∃ symbol, result.table.symbol? id = some symbol ∧ symbol.name = name.name

/-- Each name that a program reads is looked up once, and gives a use and a read of a symbol, or
stands for a name of the language, or is found undefined. -/
theorem reckoning_ofProgram (hscopes : passes.enabled .scopeAnalysis)
    (hlevels : program.levels ≤ maxNesting) :
    Reckoning passes fileExists program (ofProgram passes fileExists program) := by
  have hchain : Chain passes (.initial (region program)) _ (visited passes fileExists program) :=
    (follows_trail passes fileExists program).leads.chain
  have hcharts := charts_trail passes fileExists program
  have hwhole : (trail passes fileExists program).Whole :=
    hcharts.whole.mpr (by omega)
  constructor
  · exact (map_fst_reading? _).trans (hcharts.reads hwhole)
  · exact hchain.references_table
  · intro id
    have hinitial : (State.initial (region program)).table.readsOf id = 0 := by
      obtain ⟨scope, index⟩ := id
      cases scope <;> rfl
    have hreads := hchain.readsOf_table id
    rw [hinitial, Nat.zero_add, countP_counts] at hreads
    exact hreads
  · rw [undefined_findings_ofProgram, hchain.undefined_findings hscopes, filterMap_undefined?]
    rfl
  · intro name id hmem
    obtain ⟨d, hd, hreading⟩ := List.mem_filterMap.mp hmem
    obtain ⟨ctx, act, s⟩ := d
    cases act with
    | read x =>
      obtain ⟨rfl, houtcome⟩ := Prod.mk.inj (Option.some.inj hreading)
      obtain ⟨-, symbol, hsymbol, hname⟩ :=
        SymbolTable.lookup_spec (Outcome.of_eq_symbol.mp houtcome)
      obtain ⟨final, hfinal, hsame⟩ := (hchain.extends_of_mem hd).symbol?_name hsymbol
      exact ⟨final, hfinal, hsame.trans hname⟩
    | _ => cases hreading

theorem reckoning_export :
    PassSet.all.enabled .scopeAnalysis ∧
      (parse .normal "let x = 1; export { x }; x += print(y);".toList).program.levels ≤ maxNesting ∧
      Reckoning .all (fun _ => false)
        (parse .normal "let x = 1; export { x }; x += print(y);".toList).program
        (ofProgram .all (fun _ => false)
          (parse .normal "let x = 1; export { x }; x += print(y);".toList).program) :=
  ⟨by decide +kernel, by decide +kernel,
    reckoning_ofProgram _ _ _ (by decide +kernel) (by decide +kernel)⟩

/-! ### Programs that are nested too deep -/

/-- Nothing in a program is nested too deep to be visited exactly if its levels are within the limit,
and then all names that it reads are looked up. -/
theorem whole_trail_iff :
    ((trail passes fileExists program).Whole ↔ program.levels ≤ maxNesting) ∧
      (program.levels ≤ maxNesting →
        (trail passes fileExists program).deeds.filterMap Deed.readName? = program.reads) := by
  obtain ⟨hwhole, hreads⟩ := charts_trail passes fileExists program
  rw [Nat.zero_add] at hwhole
  exact ⟨hwhole, fun hlevels => hreads (hwhole.mpr hlevels)⟩

/-- A sum that starts with a name in parentheses. The operands are read one after the other, so that
neither the parentheses nor the signs alone reach the limit. -/
def deepSum : List Char :=
  "let x = 1; ".toList ++ List.replicate 65 '(' ++ ['x'] ++ List.replicate 65 ')' ++
    (List.replicate 64 ['+', '1']).flatten ++ [';']

theorem not_whole_deepSum :
    (parse .normal deepSum).errors = [] ∧
      ¬(trail .all (fun _ => false) (parse .normal deepSum).program).Whole ∧
      (ofProgram .all (fun _ => false) (parse .normal deepSum).program).table.references = [] := by
  obtain ⟨herrors, hlevels, hreferences⟩ : (parse .normal deepSum).errors = [] ∧
      maxNesting < 0 + (parse .normal deepSum).program.levels ∧
      (ofProgram .all (fun _ => false) (parse .normal deepSum).program).table.references = [] := by
    decide +kernel
  refine ⟨herrors, fun hwhole => ?_, hreferences⟩
  exact Nat.not_le.mpr hlevels ((charts_trail _ _ _).whole.mp hwhole)

end Analysis

end ScriptCheck
