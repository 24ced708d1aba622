import ScriptCheck.Proofs.Moves

/-!
# Passes that do not report

Switching passes off takes findings out of the list of an analysis and changes nothing else
(`gated_ofProgram`). That visits are tame says so of what a visit finds (`visited_eq_gated`), and
each of the checks of declarations belongs to one pass.
-/

namespace ScriptCheck

open List

theorem PassSet.select_append (passes : PassSet) (fs gs : List (Located Finding)) :
    passes.select (fs ++ gs) = passes.select fs ++ passes.select gs :=
  filter_append ..

/-- Of findings that all belong to one pass, either all are selected or none. -/
theorem PassSet.select_of_pass (passes : PassSet) {pass : Pass} {findings : List (Located Finding)}
    (h : ∀ f ∈ findings, f.value.pass = pass) :
    passes.select findings = Analysis.whenEnabled passes pass findings := by
  unfold select Analysis.whenEnabled
  split
  · next henabled => exact filter_eq_self.2 fun f hf => by rw [h f hf, henabled]
  · next henabled => exact filter_eq_nil_iff.2 fun f hf => by rwa [h f hf]

namespace SymbolTable

theorem pass_of_mem_unused (t : SymbolTable) : ∀ f ∈ t.unused, f.value.pass = .unusedVariables := by
  intro f hf
  obtain ⟨s, -, rfl⟩ := mem_map.1 hf
  rfl

theorem pass_of_mem_shadowing (t : SymbolTable) : ∀ f ∈ t.shadowing, f.value.pass = .shadowing := by
  intro f hf
  obtain ⟨scope, -, hf⟩ := mem_flatMap.1 hf
  split at hf
  · simp at hf
  · obtain ⟨s, -, rfl⟩ := mem_map.1 hf
    rfl

end SymbolTable

namespace Analysis

variable (passes : PassSet) (fileExists : String → Bool) (program : Program)

theorem mem_whenEnabled {passes : PassSet} {pass : Pass} {fs : List (Located Finding)}
    {f : Located Finding} (h : f ∈ whenEnabled passes pass fs) : f ∈ fs := by
  unfold whenEnabled at h
  split at h
  · exact h
  · cases h

/-- Findings of a sort that the checks of declarations do not find are found by the visit. -/
theorem filter_findings_of_visit {p : Finding → Bool}
    (hp : ∀ f, p f = true → f.pass ≠ .unusedVariables ∧ f.pass ≠ .shadowing) :
    (ofProgram passes fileExists program).findings.filter (p ·.value) =
      (visited passes fileExists program).findings.filter (p ·.value) := by
  have hnone {pass : Pass} {fs : List (Located Finding)} (hpass : ∀ f ∈ fs, f.value.pass = pass)
      (hne : ∀ f, p f = true → f.pass ≠ pass) :
      (whenEnabled passes pass fs).filter (p ·.value) = [] :=
    filter_eq_nil_iff.2 fun f hf hsort => hne _ hsort (hpass f (mem_whenEnabled hf))
  rw [ofProgram, filter_append, filter_append,
    hnone (SymbolTable.pass_of_mem_unused _) fun f hf => (hp f hf).1,
    hnone (SymbolTable.pass_of_mem_shadowing _) fun f hf => (hp f hf).2, append_nil,
    append_nil]

/-- What scope analysis finds, of some sort, is found by the visit. -/
theorem filter_findings_ofProgram {p : Finding → Bool}
    (hp : ∀ f, p f = true → f.pass = .scopeAnalysis) :
    (ofProgram passes fileExists program).findings.filter (p ·.value) =
      (visited passes fileExists program).findings.filter (p ·.value) := by
  refine filter_findings_of_visit passes fileExists program fun f hf => ?_
  rw [hp f hf]
  exact ⟨nofun, nofun⟩

theorem whenEnabled_all (pass : Pass) (findings : List (Located Finding)) :
    whenEnabled .all pass findings = findings := by
  cases pass <;> rfl

/-- What is known after a visit that reports some passes is what is known after one that reports
all, without the findings of the others. -/
theorem visited_eq_gated :
    visited passes fileExists program = (visited .all fileExists program).gated passes := by
  let ctx := outermost .all fileExists
  have h : Walk.Tame 4 fun c => Walk.sequence (ctx.reporting c) program.body
      (Walk.stmts (ctx.reporting c) program.body) :=
    Walk.tame_sequence ctx program.body (Walk.tame_stmts ctx program.body)
  exact congrArg Prod.snd (h.gates passes (.initial (region program)))

/-- Switching passes off changes nothing but which findings are listed: the table of symbols is the
one of an analysis with all passes, and so are the findings, in their order, without those of the
passes that are off. -/
theorem gated_ofProgram (passes : PassSet) (fileExists : String → Bool) (program : Program) :
    (ofProgram passes fileExists program).table = (ofProgram .all fileExists program).table ∧
      (ofProgram passes fileExists program).findings =
        (ofProgram .all fileExists program).findings.filter
          fun f => passes.enabled f.value.pass := by
  have htable : (visited passes fileExists program).table =
      (visited .all fileExists program).table := by
    rw [visited_eq_gated]
    rfl
  have hfindings : (visited passes fileExists program).findings =
      passes.select (visited .all fileExists program).findings := by
    rw [visited_eq_gated]
    rfl
  refine ⟨htable, ?_⟩
  simp only [ofProgram, whenEnabled_all]
  change _ = passes.select _
  rw [hfindings, htable, PassSet.select_append, PassSet.select_append,
    passes.select_of_pass (SymbolTable.pass_of_mem_unused _),
    passes.select_of_pass (SymbolTable.pass_of_mem_shadowing _)]

end Analysis

end ScriptCheck
