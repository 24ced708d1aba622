import ScriptCheck.Tree.Basic

/-!
# The regions of a tree

Whether every region in a tree has some property, at any depth: that of each statement, case and
expression, and that of each name and text. What could not be read as an expression may be asked for
something else; in particular it may be asked for that there is no such part (`allRead`).
-/

namespace ScriptCheck

/-- What is asked of the regions of a tree, and of those of parts that could not be read. -/
structure RegionSpec where
  part : Span → Prop
  unread : Span → Prop

/-- Whether a region ends by an offset. -/
abbrev EndsBy (stop : Nat) (span : Span) : Prop := span.hi ≤ stop

/-- Regions that end by an offset. -/
def upTo (stop : Nat) : RegionSpec := ⟨EndsBy stop, EndsBy stop⟩

@[simp]
theorem part_upTo (stop : Nat) (span : Span) : (upTo stop).part span = (span.hi ≤ stop) := rfl

/-- Any regions, but all parts could be read. -/
def allRead : RegionSpec := ⟨fun _ => True, fun _ => False⟩

/-- Whether the regions of the names of an import have a property. -/
def ImportSpec.Regions (P : RegionSpec) : ImportSpec → Prop
  | .named imported newName => P.part imported.span ∧ ∀ x ∈ newName, P.part x.span
  | .default name => P.part name.span
  | .namespaceOf name => P.part name.span

/-- Whether the regions of an exported name and its new name have a property. -/
def ExportSpec.Regions (P : RegionSpec) (spec : ExportSpec) : Prop :=
  P.part spec.name.span ∧ ∀ x ∈ spec.exported, P.part x.span

/-- Whether the region of a key has a property. -/
def PropertyName.Regions (P : RegionSpec) : PropertyName → Prop
  | .word name => P.part name.span
  | .text lit => P.part lit.span
  | .number lit => P.part lit.span

/-- Whether the regions of parameters have a property. -/
def paramsRegions (P : RegionSpec) (ps : List Param) : Prop := ∀ p ∈ ps, P.part p.name.span

mutual

/-- Whether all regions of a statement have a property. -/
def Stmt.Regions (P : RegionSpec) : Stmt → Prop
  | .expr span value => P.part span ∧ value.Regions P
  | .decl span _ declarators => P.part span ∧ declaratorsRegions P declarators
  | .function span name ps body =>
    P.part span ∧ (∀ x ∈ name, P.part x.span) ∧ paramsRegions P ps ∧ stmtsRegions P body
  | .ifElse span test yes no =>
    P.part span ∧ test.Regions P ∧ yes.Regions P ∧ stmtOptionRegions P no
  | .whileLoop span test body => P.part span ∧ test.Regions P ∧ body.Regions P
  | .forLoop span init test update body =>
    P.part span ∧ stmtOptionRegions P init ∧ optionRegions P test ∧ optionRegions P update ∧
      body.Regions P
  | .forIn span _ key value iterable body =>
    P.part span ∧ (∀ x ∈ key, P.part x.span) ∧ P.part value.span ∧ iterable.Regions P ∧
      body.Regions P
  | .switch span subject cases => P.part span ∧ subject.Regions P ∧ casesRegions P cases
  | .tryCatch span block param handler =>
    P.part span ∧ stmtsRegions P block ∧ (∀ x ∈ param, P.part x.span) ∧ stmtsRegions P handler
  | .returns span value => P.part span ∧ optionRegions P value
  | .breaks span => P.part span
  | .continues span => P.part span
  | .block span body => P.part span ∧ stmtsRegions P body
  | .imports span specs source =>
    P.part span ∧ (∀ spec ∈ specs, spec.Regions P) ∧ P.part source.span
  | .exportDecl span declaration => P.part span ∧ declaration.Regions P
  | .exportDefault span value => P.part span ∧ value.Regions P
  | .exportNames span specs source =>
    P.part span ∧ (∀ spec ∈ specs, spec.Regions P) ∧ ∀ lit ∈ source, P.part lit.span
  | .exportAll span newName source =>
    P.part span ∧ (∀ x ∈ newName, P.part x.span) ∧ P.part source.span
  | .empty span => P.part span

/-- Whether all regions of a statement that may be missing have a property. -/
def stmtOptionRegions (P : RegionSpec) : Option Stmt → Prop
  | none => True
  | some s => s.Regions P

/-- Whether all regions of some statements have a property. -/
def stmtsRegions (P : RegionSpec) : List Stmt → Prop
  | [] => True
  | s :: rest => s.Regions P ∧ stmtsRegions P rest

/-- Whether all regions of a declared name and its initial value have a property. -/
def Declarator.Regions (P : RegionSpec) : Declarator → Prop
  | .mk name init => P.part name.span ∧ optionRegions P init

/-- Whether all regions of declared names and their initial values have a property. -/
def declaratorsRegions (P : RegionSpec) : List Declarator → Prop
  | [] => True
  | d :: rest => d.Regions P ∧ declaratorsRegions P rest

/-- Whether all regions of a case have a property. -/
def SwitchCase.Regions (P : RegionSpec) : SwitchCase → Prop
  | .mk span test body => P.part span ∧ optionRegions P test ∧ stmtsRegions P body

/-- Whether all regions of some cases have a property. -/
def casesRegions (P : RegionSpec) : List SwitchCase → Prop
  | [] => True
  | c :: rest => c.Regions P ∧ casesRegions P rest

/-- Whether all regions of an expression that may be missing have a property. -/
def optionRegions (P : RegionSpec) : Option Expr → Prop
  | none => True
  | some e => e.Regions P

/-- Whether all regions of an expression have a property. -/
def Expr.Regions (P : RegionSpec) : Expr → Prop
  | .ident name => P.part name.span
  | .int span _ | .double span _ | .string span _ | .regexp span _ _ | .bool span _ | .null span
  | .this span => P.part span
  | .invalid span => P.unread span
  | .template span parts => P.part span ∧ exprsRegions P parts
  | .array span elements => P.part span ∧ exprsRegions P elements
  | .object span properties => P.part span ∧ propertiesRegions P properties
  | .spread span value => P.part span ∧ value.Regions P
  | .unary span _ operand => P.part span ∧ operand.Regions P
  | .update span _ _ target => P.part span ∧ target.Regions P
  | .binary span _ lhs rhs => P.part span ∧ lhs.Regions P ∧ rhs.Regions P
  | .assign span _ target value => P.part span ∧ target.Regions P ∧ value.Regions P
  | .conditional span test yes no => P.part span ∧ test.Regions P ∧ yes.Regions P ∧ no.Regions P
  | .call span callee args _ => P.part span ∧ callee.Regions P ∧ exprsRegions P args
  | .member span object property _ => P.part span ∧ object.Regions P ∧ P.part property.span
  | .index span object index _ => P.part span ∧ object.Regions P ∧ index.Regions P
  | .function span name ps body =>
    P.part span ∧ (∀ x ∈ name, P.part x.span) ∧ paramsRegions P ps ∧ stmtsRegions P body
  | .arrowExpr span ps body => P.part span ∧ paramsRegions P ps ∧ body.Regions P
  | .arrowBlock span ps body => P.part span ∧ paramsRegions P ps ∧ stmtsRegions P body
  | .paren span inner => P.part span ∧ inner.Regions P

/-- Whether all regions of some expressions have a property. -/
def exprsRegions (P : RegionSpec) : List Expr → Prop
  | [] => True
  | e :: rest => e.Regions P ∧ exprsRegions P rest

/-- Whether all regions of a property of an object have a property. -/
def Property.Regions (P : RegionSpec) : Property → Prop
  | .named key value => key.Regions P ∧ value.Regions P
  | .computed key value => key.Regions P ∧ value.Regions P
  | .shorthand name => P.part name.span
  | .spread value => value.Regions P

/-- Whether all regions of the properties of an object have a property. -/
def propertiesRegions (P : RegionSpec) : List Property → Prop
  | [] => True
  | p :: rest => p.Regions P ∧ propertiesRegions P rest

end

variable {P : RegionSpec}

/-- The region of a statement is one of its regions. -/
theorem Stmt.span_of_regions {s : Stmt} (h : s.Regions P) : P.part s.span := by
  cases s with
  | breaks | continues | empty => exact h
  | _ => exact h.1

theorem stmtsRegions_iff {ss : List Stmt} : stmtsRegions P ss ↔ ∀ s ∈ ss, s.Regions P := by
  induction ss with
  | nil => simp [stmtsRegions]
  | cons s rest ih => simp [stmtsRegions, ih]

theorem optionRegions_iff {o : Option Expr} : optionRegions P o ↔ ∀ e ∈ o, e.Regions P := by
  cases o <;> simp [optionRegions]

theorem stmtOptionRegions_iff {o : Option Stmt} :
    stmtOptionRegions P o ↔ ∀ s ∈ o, s.Regions P := by
  cases o <;> simp [stmtOptionRegions]

theorem exprsRegions_iff {es : List Expr} : exprsRegions P es ↔ ∀ e ∈ es, e.Regions P := by
  induction es with
  | nil => simp [exprsRegions]
  | cons e rest ih => simp [exprsRegions, ih]

theorem declaratorsRegions_iff {ds : List Declarator} :
    declaratorsRegions P ds ↔ ∀ d ∈ ds, d.Regions P := by
  induction ds with
  | nil => simp [declaratorsRegions]
  | cons d rest ih => simp [declaratorsRegions, ih]

theorem casesRegions_iff {cs : List SwitchCase} : casesRegions P cs ↔ ∀ c ∈ cs, c.Regions P := by
  induction cs with
  | nil => simp [casesRegions]
  | cons c rest ih => simp [casesRegions, ih]

theorem propertiesRegions_iff {ps : List Property} :
    propertiesRegions P ps ↔ ∀ p ∈ ps, p.Regions P := by
  induction ps with
  | nil => simp [propertiesRegions]
  | cons p rest ih => simp [propertiesRegions, ih]

end ScriptCheck
