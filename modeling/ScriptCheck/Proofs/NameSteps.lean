import Mathlib.Data.Bool.Basic
import ScriptCheck.Proofs.Trail

/-!
# What one deed does

The table, the current types and the findings after each step that is about a name, as functions of
the table before it (`Act.Did`).
-/

namespace ScriptCheck

open List

open Bool (and_elim_left)

namespace Walk

/-- What a name stands for where it is read. -/
inductive Outcome where
  | symbol (id : SymbolId)
  /-- A function or a value that every script knows. -/
  | builtin
  | undefined
  deriving DecidableEq

/-- What a name stands for in a scope. -/
def Outcome.of (t : SymbolTable) (scope : Nat) (name : String) : Outcome :=
  match t.lookup name scope with
  | some id => .symbol id
  | none =>
    if (Builtin.global? name).isSome || (Builtin.globalConstant? name).isSome then .builtin
    else .undefined

theorem Outcome.of_eq_symbol {t : SymbolTable} {scope : Nat} {name : String} {id : SymbolId} :
    of t scope name = .symbol id ↔ t.lookup name scope = some id := by
  cases hfound : t.lookup name scope with
  | some x => simp [of, hfound]
  | none =>
    simp only [of, hfound]
    split <;> simp

/-- The use of what a name stands for. -/
def Outcome.reference? (span : Span) : Outcome → Option Reference
  | symbol id => some ⟨span, id⟩
  | builtin | undefined => none

theorem Outcome.reference?_of (t : SymbolTable) (scope : Nat) (name : Ident) :
    (of t scope name.name).reference? name.span =
      (t.lookup name.name scope).map (⟨name.span, ·⟩) := by
  cases hfound : t.lookup name.name scope with
  | some id => simp [of, hfound, reference?]
  | none =>
    simp only [of, hfound]
    split <;> rfl

/-- The symbol of a name that is only assigned to. -/
def implicitSymbol (name : Ident) (type : Ty) : Symbol :=
  { Symbol.declared name.name .letVar type name.span with implicit := true }

namespace Act

/-- The table after a step in a scope. -/
def tableAfter (scope : Nat) (t : SymbolTable) : Act → SymbolTable
  | .read name =>
    match t.lookup name.name scope with
    | some id =>
      (t.addReference name.span id).modifySymbol id fun s => { s with reads := s.reads + 1 }
    | none => t
  | .assign name type =>
    match t.lookup name.name scope with
    | some id =>
      if (t.symbol? id).any (·.kind == .constVar) then
        t.addReference name.span id
      else
        (t.addReference name.span id).modifySymbol id fun s => { s with type := s.type.join type }
    | none => (t.declare (t.functionScope scope) (implicitSymbol name type)).2.2
  | .declare name kind type => (t.declare scope (.declared name.name kind type name.span)).2.2
  | .declareImport source name specifier type =>
    let r := t.declare scope (.declared name.name .imported type name.span)
    if r.2.1 then r.2.2.modifySymbol r.1 fun s => { s with specifier, source := some source }
    else r.2.2
  | .recordFunction name type =>
    match t.lookup name.name scope with
    | some id =>
      if (t.symbol? id).any (·.kind == .function) then
        t.modifySymbol id fun s => { s with type }
      else
        t
    | none => t
  | .countExported name =>
    match t.lookup name.name scope with
    | some id => t.modifySymbol id fun s => { s with reads := s.reads + 1 }
    | none => t
  | .openScope kind span => t.push kind scope span

/-- The variable that gets a type by a step, and the type. -/
def gives (scope : Nat) (t : SymbolTable) : Act → Option (SymbolId × Ty)
  | .assign name type =>
    match t.lookup name.name scope with
    | some id => if (t.symbol? id).any (·.kind == .constVar) then none else some (id, type)
    | none => some ((t.declare (t.functionScope scope) (implicitSymbol name type)).1, type)
  | .declare name kind type =>
    let r := t.declare scope (.declared name.name kind type name.span)
    if r.2.1 then some (r.1, type) else none
  | .declareImport _ name _ type =>
    let r := t.declare scope (.declared name.name .imported type name.span)
    if r.2.1 then some (r.1, type) else none
  | .recordFunction name type => (t.lookup name.name scope).map fun id => (id, type)
  | .read _ | .countExported _ | .openScope _ _ => none

/-- What is found by a step. -/
def finding? (scope : Nat) (t : SymbolTable) : Act → Option (Located Finding)
  | .read name =>
    match Outcome.of t scope name.name with
    | .undefined => some ⟨name.span, .undefinedVariable name.name⟩
    | _ => none
  | .assign name _ =>
    match t.lookup name.name scope with
    | some id =>
      if (t.symbol? id).any (·.kind == .constVar) then
        some ⟨name.span, .assignToConstant name.name⟩
      else
        none
    | none => none
  | .declare name kind type =>
    if (t.declare scope (.declared name.name kind type name.span)).2.1 then none
    else some ⟨name.span, .redeclaration name.name⟩
  | .declareImport _ name _ type =>
    if (t.declare scope (.declared name.name .imported type name.span)).2.1 then none
    else some ⟨name.span, .redeclaration name.name⟩
  | .recordFunction _ _ | .countExported _ | .openScope _ _ => none

/-- The scope in which a step may declare something is in the table. -/
def Needs (scope : Nat) (t : SymbolTable) : Act → Prop
  | .assign _ _ => t.isRooted scope
  | .declare _ _ _ | .declareImport _ _ _ _ | .openScope _ _ => t.hasScope scope
  | .read _ | .recordFunction _ _ | .countExported _ => True

/-- All that a step does to names. -/
structure Did (ctx : Context) (act : Act) (s t : State) : Prop where
  table : t.table = act.tableAfter ctx.scope s.table
  env : t.env = (act.gives ctx.scope s.table).elim s.env fun g => s.env.set g.1 g.2
  findings : t.findings = s.findings ++ (act.finding? ctx.scope s.table).toList.filter
    fun f => ctx.passes.enabled f.value.pass
  sound : t.sound = true → s.sound = true ∧ act.Needs ctx.scope s.table

end Act

section Did

variable {α : Type} {ctx : Context} (s : State) (name : Ident) (type : Ty)

/-- A step that looks a name up goes on with what it stands for. -/
theorem after_found {s : State} {name : Ident} {found : Option SymbolId}
    (h : s.table.lookup name.name ctx.scope = found) (f : Option SymbolId → Walk α) :
    s.after (lookup ctx name >>= f) = (s.after (lookup ctx name)).after (f found) := by
  subst h
  rfl

/-- A step that declares a name goes on with the symbol that has the name. -/
theorem after_declareIn {s : State} {scope : Nat} {symbol : Symbol} {id : SymbolId} {isNew : Bool}
    {t : SymbolTable} (h : s.table.declare scope symbol = (id, isNew, t))
    (f : SymbolId × Bool → Walk α) :
    s.after (declareIn scope symbol >>= f) =
      ({ s with table := t, sound := s.sound && s.table.hasScope scope } : State).after
        (f (id, isNew)) := by
  have hid : (s.table.declare scope symbol).1 = id := by rw [h]
  have hnew : (s.table.declare scope symbol).2.1 = isNew := by rw [h]
  have ht : (s.table.declare scope symbol).2.2 = t := by rw [h]
  subst hid hnew ht
  rfl

theorem after_report (ctx : Context) (span : Span) (finding : Finding) :
    s.after (report ctx span finding) = { s with findings := s.findings ++
      [(⟨span, finding⟩ : Located Finding)].filter fun f => ctx.passes.enabled f.value.pass } := by
  change (if ctx.passes.enabled finding.pass then _ else s : State) = _
  split
  · next h => simp [h]
  · next h => simp [h]

theorem did_read : (Act.read name).Did ctx s (s.after (read ctx name)) := by
  unfold read
  cases hfound : s.table.lookup name.name ctx.scope with
  | some id =>
    rw [after_found hfound]
    refine ⟨?_, rfl, ?_, fun h => ⟨and_elim_left (and_elim_left (and_elim_left h)), trivial⟩⟩
    · simp only [Act.tableAfter, hfound]
      rfl
    · simp only [Act.finding?, Outcome.of, hfound]
      exact (append_nil _).symm
  | none =>
    have htable : (Act.read name).tableAfter ctx.scope s.table = s.table := by
      simp only [Act.tableAfter, hfound]
    rw [after_found hfound]
    simp only [globalType]
    split
    · next hglobal =>
      refine ⟨htable.symm, rfl, ?_, fun h => ⟨and_elim_left h, trivial⟩⟩
      simp only [Act.finding?, Outcome.of, hfound, hglobal]
      exact (append_nil _).symm
    · next hglobal hconstant =>
      refine ⟨htable.symm, rfl, ?_, fun h => ⟨and_elim_left h, trivial⟩⟩
      simp only [Act.finding?, Outcome.of, hfound, hglobal, hconstant]
      exact (append_nil _).symm
    · next hglobal hconstant =>
      have hafter : ((s.after (lookup ctx name)).after do
          report ctx name.span (.undefinedVariable name.name)
          return Ty.unknown) = _ := after_report _ ctx name.span (.undefinedVariable name.name)
      rw [hafter]
      refine ⟨htable.symm, rfl, ?_, fun h => ⟨and_elim_left h, trivial⟩⟩
      simp only [Act.finding?, Outcome.of, hfound, hglobal, hconstant]
      rfl

theorem did_assign : (Act.assign name type).Did ctx s (s.after (assign ctx name type)) := by
  unfold assign
  cases hfound : s.table.lookup name.name ctx.scope with
  | some id =>
    rw [after_found hfound]
    let referred := (s.after (lookup ctx name)).after (refer name id)
    change (Act.assign name type).Did ctx s ((referred.after (symbol id)).after
      (if (s.table.symbol? id).any (·.kind == .constVar) then
        report ctx name.span (.assignToConstant name.name) else _))
    split
    · next hconst =>
      rw [after_report]
      refine ⟨?_, ?_, ?_, fun h => (Bool.and_eq_true _ _).mp (and_elim_left h)⟩
      · simp only [Act.tableAfter, hfound, hconst]
        rfl
      · simp only [Act.gives, hfound, hconst]
        rfl
      · simp only [Act.finding?, hfound, hconst]
        rfl
    · next hconst =>
      refine ⟨?_, ?_, ?_, fun h => (Bool.and_eq_true _ _).mp (and_elim_left (and_elim_left h))⟩
      · simp only [Act.tableAfter, hfound, hconst]
        rfl
      · simp only [Act.gives, hfound, hconst]
        rfl
      · simp only [Act.finding?, hfound, hconst]
        exact (append_nil _).symm
  | none =>
    rw [after_found hfound]
    refine ⟨?_, ?_, ?_, fun h => (Bool.and_eq_true _ _).mp (and_elim_left h)⟩
    · simp only [Act.tableAfter, hfound]
      rfl
    · simp only [Act.gives, hfound]
      rfl
    · simp only [Act.finding?, hfound]
      exact (append_nil _).symm

theorem did_declare (kind : SymbolKind) :
    (Act.declare name kind type).Did ctx s (s.after (declare ctx name kind type)) := by
  unfold declare
  cases hdeclare : s.table.declare ctx.scope (.declared name.name kind type name.span) with
  | mk id r =>
    obtain ⟨isNew, t⟩ := r
    rw [after_declareIn hdeclare]
    cases isNew with
    | true =>
      refine ⟨?_, ?_, ?_, (Bool.and_eq_true _ _).mp⟩
      · simp only [Act.tableAfter, hdeclare]
        rfl
      · simp only [Act.gives, hdeclare]
        rfl
      · simp only [Act.finding?, hdeclare]
        exact (append_nil _).symm
    | false =>
      have hafter := after_report { s with table := t, sound := s.sound && s.table.hasScope ctx.scope }
        ctx name.span (.redeclaration name.name)
      refine ⟨?_, ?_, ?_, fun h => ?_⟩
      · simp only [Act.tableAfter, hdeclare]
        exact congrArg State.table hafter
      · have henv := congrArg State.env hafter
        simp only [Act.gives, hdeclare]
        exact henv
      · simp only [Act.finding?, hdeclare]
        exact congrArg State.findings hafter
      · exact (Bool.and_eq_true _ _).mp ((congrArg State.sound hafter).symm.trans h)

theorem answer_declare (kind : SymbolKind) :
    let r := s.table.declare ctx.scope (.declared name.name kind type name.span)
    s.answer (declare ctx name kind type) = if r.2.1 then some r.1 else none := by
  intro r
  change State.answer _ (if r.2.1 then do
      setType r.1 type
      return some r.1
    else do
      report ctx name.span (.redeclaration name.name)
      return none) = _
  by_cases hnew : r.2.1 = true
  · simp only [hnew, if_true]
    rfl
  · simp only [hnew]
    rfl

/-- An import is declared like any other name, and then gets its source. -/
theorem did_declareImport (source : String) (specifier : Option String) :
    (Act.declareImport source name specifier type).Did ctx s
      (s.after (declareImport ctx source name specifier type)) := by
  have h : (Act.declare name .imported type).Did ctx s (s.after (declare ctx name .imported type)) :=
    did_declare s name type .imported
  have hanswer : s.answer (declare ctx name .imported type) = _ := answer_declare s name type .imported
  change Act.Did ctx _ s ((s.after (declare ctx name .imported type)).after
    (match s.answer (declare ctx name .imported type) with
      | some id => updateSymbol id fun symbol => { symbol with specifier, source := some source }
      | none => return))
  rw [hanswer]
  split
  · next id hid =>
    obtain ⟨hnew, hid⟩ := Option.ite_none_right_eq_some.mp hid
    cases hid
    refine ⟨?_, h.env, h.findings, fun hsound => h.sound (and_elim_left hsound)⟩
    simp only [Act.tableAfter, hnew]
    exact congrArg (SymbolTable.modifySymbol · _ _) h.table
  · next hnone =>
    refine ⟨h.table.trans ?_, h.env, h.findings, h.sound⟩
    exact (if_neg fun hnew => Option.some_ne_none _ ((if_pos hnew).symm.trans hnone)).symm

theorem did_recordFunction :
    (Act.recordFunction name type).Did ctx s (s.after (recordFunction ctx name type)) := by
  unfold recordFunction
  cases hfound : s.table.lookup name.name ctx.scope with
  | some id =>
    rw [after_found hfound]
    have hgives : (Act.recordFunction name type).gives ctx.scope s.table = some (id, type) := by
      simp only [Act.gives, hfound]
      rfl
    change (Act.recordFunction name type).Did ctx s
      (((s.after (lookup ctx name)).after (symbol id)).after
        (if (s.table.symbol? id).any (·.kind == .function) then _ else _))
    split
    · next hfunction =>
      refine ⟨?_, ?_, (append_nil _).symm,
        fun h => ⟨and_elim_left (and_elim_left (and_elim_left h)), trivial⟩⟩
      · simp only [Act.tableAfter, hfound, hfunction]
        rfl
      · rw [hgives]
        rfl
    · next hfunction =>
      refine ⟨?_, ?_, (append_nil _).symm, fun h => ⟨and_elim_left (and_elim_left h), trivial⟩⟩
      · simp only [Act.tableAfter, hfound, hfunction]
        rfl
      · rw [hgives]
        rfl
  | none =>
    rw [after_found hfound]
    refine ⟨?_, ?_, (append_nil _).symm, fun h => ⟨and_elim_left h, trivial⟩⟩
    · simp only [Act.tableAfter, hfound]
      rfl
    · simp only [Act.gives, hfound]
      rfl

theorem did_countExported :
    (Act.countExported name).Did ctx s (s.after (countExported ctx [name])) := by
  unfold countExported
  cases hfound : s.table.lookup name.name ctx.scope with
  | some id =>
    rw [after_found hfound]
    refine ⟨?_, rfl, (append_nil _).symm, fun h => ⟨and_elim_left (and_elim_left h), trivial⟩⟩
    simp only [Act.tableAfter, hfound]
    rfl
  | none =>
    rw [after_found hfound]
    refine ⟨?_, rfl, (append_nil _).symm, fun h => ⟨and_elim_left h, trivial⟩⟩
    simp only [Act.tableAfter, hfound]
    rfl

theorem did_openScope (kind : ScopeKind) (span : Span) :
    (Act.openScope kind span).Did ctx s (s.after (openScope ctx kind span)) :=
  ⟨rfl, rfl, (append_nil _).symm, (Bool.and_eq_true _ _).mp⟩

end Did

theorem Deed.did (d : Deed) : d.act.Did d.place d.before d.after := by
  obtain ⟨ctx, act, s⟩ := d
  cases act with
  | read name => exact did_read s name
  | assign name type => exact did_assign s name type
  | declare name kind type => exact did_declare s name type kind
  | declareImport source name specifier type => exact did_declareImport s name type source specifier
  | recordFunction name type => exact did_recordFunction s name type
  | countExported name => exact did_countExported s name
  | openScope kind span => exact did_openScope s kind span

end Walk

end ScriptCheck
