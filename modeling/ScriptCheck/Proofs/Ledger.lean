import ScriptCheck.Proofs.Ancestors
import ScriptCheck.Proofs.Following

/-!
# What deeds add up to

The deeds of a trail, taken as a list, make a *chain*: each starts where the one before it ended, as
far as the table and the findings about names go. So what they do to these adds up. A chain adds the
uses that its deeds note, in their order; a symbol is read as often as deeds count it; and each name
that is read and stands for nothing is found undefined once.
-/

namespace ScriptCheck

open List

/-- A name was found undefined. -/
def Finding.isUndefined : Finding → Bool
  | undefinedVariable _ => true
  | _ => false

/-! ### Declaring a symbol -/

namespace SymbolTable

/-- How often a symbol is read. -/
def readsOf (t : SymbolTable) (id : SymbolId) : Nat := ((t.symbol? id).map Symbol.reads).getD 0

variable {t : SymbolTable} {id : SymbolId} {scope : Nat} {symbol : Symbol}

/-- The number of a new symbol was free before. -/
theorem symbol?_of_new (h : (t.declare scope symbol).2.1 = true) :
    t.symbol? (t.declare scope symbol).1 = none := by
  unfold declare at h ⊢
  split at h
  · cases h
  · cases hs : t.scopes[scope]? <;> simp [symbol?, hs]

/-- A new symbol is found under its number. -/
theorem symbol?_declare_new (hscope : t.hasScope scope) (h : (t.declare scope symbol).2.1 = true) :
    (t.declare scope symbol).2.2.symbol? (t.declare scope symbol).1 = some symbol := by
  obtain ⟨s, hs⟩ := hasScope_iff.mp hscope
  unfold declare at h ⊢
  split at h
  · cases h
  · rw [symbol?_add hs, if_pos]
    rw [hs]
    rfl

theorem symbol?_declare_of_some {s : Symbol} (scope : Nat) (symbol : Symbol)
    (h : t.symbol? id = some s) : (t.declare scope symbol).2.2.symbol? id = some s := by
  unfold declare
  split
  · exact h
  · exact symbol?_add_of_some scope symbol h

theorem of_symbol?_declare {s : Symbol} (h : (t.declare scope symbol).2.2.symbol? id = some s) :
    s = symbol ∨ t.symbol? id = some s := by
  unfold declare at h
  split at h
  · exact .inr h
  · exact of_symbol?_add h

/-- A name that stands for nothing is not declared in the function around. -/
theorem declare_functionScope_new (symbol : Symbol) (hrooted : t.isRooted scope)
    (hnone : t.lookup symbol.name scope = none) :
    t.hasScope (t.functionScope scope) ∧
      (t.declare (t.functionScope scope) symbol).2.1 = true := by
  obtain ⟨hall, hlast⟩ := (Bool.and_eq_true _ _).mp hrooted
  have hmem : t.functionScope scope ∈ t.ancestors scope := by
    unfold functionScope
    cases hfind : (t.ancestors scope).find? fun id => !t.isBlock id with
    | some id => exact mem_of_find?_eq_some hfind
    | none => exact mem_of_getLast? (eq_of_beq hlast)
  refine ⟨all_eq_true.mp hall _ hmem, ?_⟩
  have hfree := findSome?_eq_none_iff.mp hnone _ hmem
  simp only [declare, hfree]

end SymbolTable

namespace Walk

/-! ### Symbols after a step -/

namespace Act

/-- The symbol of which a step counts a use. -/
def counts (scope : Nat) (t : SymbolTable) : Act → Option SymbolId
  | .read name | .countExported name => t.lookup name.name scope
  | _ => none

/-- What becomes of a symbol by a step in a scope. -/
def revised (scope : Nat) (t : SymbolTable) (act : Act) (id : SymbolId) (s : Symbol) : Symbol :=
  match act with
  | .read name | .countExported name =>
    if t.lookup name.name scope = some id then { s with reads := s.reads + 1 } else s
  | .assign name type =>
    if t.lookup name.name scope = some id ∧ s.kind ≠ .constVar then
      { s with type := s.type.join type }
    else
      s
  | .recordFunction name type =>
    if t.lookup name.name scope = some id ∧ s.kind = .function then { s with type } else s
  | .declare _ _ _ | .declareImport _ _ _ _ | .openScope _ _ => s

variable {scope : Nat} {t : SymbolTable} {id : SymbolId} {s : Symbol}

theorem symbol?_tableAfter (act : Act) (h : t.symbol? id = some s) :
    (act.tableAfter scope t).symbol? id = some (act.revised scope t id s) := by
  cases act with
  | read name | countExported name =>
    simp only [tableAfter, revised]
    cases hfound : t.lookup name.name scope with
    | none => simp [h]
    | some x => by_cases hx : x = id <;> simp [SymbolTable.symbol?_modifySymbol, h, hx]
  | assign name type =>
    simp only [tableAfter, revised]
    cases hfound : t.lookup name.name scope with
    | none => simp [SymbolTable.symbol?_declare_of_some _ _ h]
    | some x =>
      by_cases hx : x = id
      · subst hx
        by_cases hconst : s.kind = .constVar <;>
          simp [SymbolTable.symbol?_modifySymbol, h, hconst]
      · by_cases hconst : (t.symbol? x).any (·.kind == .constVar) <;>
          simp [SymbolTable.symbol?_modifySymbol, h, hx, hconst]
  | recordFunction name type =>
    simp only [tableAfter, revised]
    cases hfound : t.lookup name.name scope with
    | none => simp [h]
    | some x =>
      by_cases hx : x = id
      · subst hx
        by_cases hkind : s.kind = .function <;>
          simp [SymbolTable.symbol?_modifySymbol, h, hkind]
      · by_cases hkind : (t.symbol? x).any (·.kind == .function) <;>
          simp [SymbolTable.symbol?_modifySymbol, h, hx, hkind]
  | declare name kind type => exact SymbolTable.symbol?_declare_of_some _ _ h
  | declareImport source name specifier type =>
    have hdeclared := SymbolTable.symbol?_declare_of_some scope
      (.declared name.name .imported type name.span) h
    simp only [tableAfter, revised]
    split
    · next hnew =>
      rw [SymbolTable.symbol?_modifySymbol, if_neg]
      · exact hdeclared
      · intro hid
        have hfree := SymbolTable.symbol?_of_new hnew
        rw [hid, h] at hfree
        cases hfree
    · exact hdeclared
  | openScope kind span => exact (SymbolTable.symbol?_push _ _ _ _ _).trans h

/-- A symbol that comes with a step is not read yet. -/
theorem reads_of_new {act : Act} (hnone : t.symbol? id = none)
    (h : (act.tableAfter scope t).symbol? id = some s) : s.reads = 0 := by
  cases act with
  | read name | countExported name =>
    simp only [tableAfter] at h
    split at h <;> simp [SymbolTable.symbol?_modifySymbol, hnone] at h
  | recordFunction name type =>
    simp only [tableAfter] at h
    split at h
    · split at h <;> simp [SymbolTable.symbol?_modifySymbol, hnone] at h
    · simp [hnone] at h
  | assign name type =>
    simp only [tableAfter] at h
    split at h
    · split at h <;> simp [SymbolTable.symbol?_modifySymbol, hnone] at h
    · obtain rfl | h := SymbolTable.of_symbol?_declare h
      · rfl
      · simp [hnone] at h
  | declare name kind type =>
    obtain rfl | h := SymbolTable.of_symbol?_declare h
    · rfl
    · simp [hnone] at h
  | declareImport source name specifier type =>
    have hdeclared {x : Symbol} (hx : (t.declare scope
        (.declared name.name .imported type name.span)).2.2.symbol? id = some x) : x.reads = 0 := by
      obtain rfl | hx := SymbolTable.of_symbol?_declare hx
      · rfl
      · simp [hnone] at hx
    simp only [tableAfter] at h
    split at h
    · rw [SymbolTable.symbol?_modifySymbol] at h
      split at h
      · obtain ⟨x, hx, rfl⟩ := Option.map_eq_some_iff.mp h
        change x.reads = 0
        exact hdeclared hx
      · exact hdeclared h
    · exact hdeclared h
  | openScope kind span => simp [tableAfter, hnone] at h

theorem reads_revised (act : Act) : (act.revised scope t id s).reads =
    s.reads + if act.counts scope t = some id then 1 else 0 := by
  cases act with
  | read name | countExported name =>
    by_cases hfound : t.lookup name.name scope = some id <;> simp [revised, counts, hfound]
  | assign name type | recordFunction name type =>
    simp only [revised, counts]
    split <;> rfl
  | declare name kind type | declareImport source name specifier type | openScope kind span => rfl

@[simp] theorem kind_revised (act : Act) : (act.revised scope t id s).kind = s.kind := by
  unfold revised
  split
  all_goals first | rfl | (split <;> rfl)

/-- What is counted is in the table. -/
theorem symbol?_of_counts {act : Act} (h : act.counts scope t = some id) :
    (t.symbol? id).isSome := by
  cases act with
  | read name | countExported name => exact SymbolTable.hasSymbol_of_lookup h
  | _ => cases h

end Act

/-! ### Chains -/

/-- The deeds of a list lead from one state to another, apart from current types. -/
def Chain (passes : PassSet) (s : State) : List Deed → State → Prop
  | [], t => s.SameNames t
  | d :: ds, t => d.Fits passes ∧ s.SameNames d.before ∧ Chain passes d.after ds t

namespace Chain

variable {passes : PassSet} {s s' t t' u : State} {ds ds' : List Deed}

theorem before (h : Chain passes s ds t) (hs : s'.SameNames s) : Chain passes s' ds t := by
  cases ds with
  | nil => exact hs.trans h
  | cons d ds => exact ⟨h.1, hs.trans h.2.1, h.2.2⟩

theorem append (h : Chain passes s ds t) (h' : Chain passes t ds' u) :
    Chain passes s (ds ++ ds') u := by
  induction ds generalizing s with
  | nil => exact h'.before h
  | cons d ds ih => exact ⟨h.1, h.2.1, ih h.2.2⟩

theorem later (h : Chain passes s ds t) (ht : t.SameNames t') : Chain passes s ds t' := by
  have h' : Chain passes s (ds ++ []) t' := h.append ht
  rwa [append_nil] at h'

/-- The last deeds of a chain make a chain. -/
theorem of_append (h : Chain passes s (ds ++ ds') t) : ∃ u, Chain passes u ds' t := by
  induction ds generalizing s with
  | nil => exact ⟨s, h⟩
  | cons d ds ih => exact ih h.2.2

end Chain

/-- The deeds of a trail make a chain. -/
theorem Trail.Leads.chain {passes : PassSet} {trail : Trail} {s t : State}
    (h : trail.Leads passes s t) : Chain passes s trail.deeds t := by
  induction trail generalizing s t with
  | deed d => exact ⟨h.1, h.2.1.toSameNames, h.2.2.toSameNames⟩
  | andThen first rest ihfirst ihrest =>
    obtain ⟨u, hfirst, hrest⟩ := h
    exact (ihfirst hfirst).append (ihrest hrest)
  | either yes no a b ihyes ihno =>
    obtain ⟨u, v, hyes, hno, hmerge⟩ := h
    have hend := (v.sameNames_mergeBranches u.env a b).trans hmerge.toSameNames
    exact (ihyes hyes).append (((ihno hno).before (u.sameNames_setEnv _)).later hend)
  | «maybe» part ih =>
    obtain ⟨u, hpart, hjoin⟩ := h
    exact (ih hpart).later ((u.sameNames_mergeBranches _ _ _).trans hjoin.toSameNames)
  | loop start body update ihstart ihbody ihupdate =>
    obtain ⟨u, v, w, hstart, hbody, hupdate, hjoin⟩ := h
    have hend := (w.sameNames_mergeBranches _ _ _).trans hjoin.toSameNames
    exact (ihstart hstart).append ((ihbody hbody).append ((ihupdate hupdate).later hend))
  | switch cases ih =>
    obtain ⟨u, hcases, hjoin⟩ := h
    exact (ih hcases).later ((u.sameNames_mergeBranches _ _ _).trans hjoin.toSameNames)
  | case _ test body rest ihtest ihbody ihrest =>
    obtain ⟨u, v, htest, hbody, hrest⟩ := h
    exact (ihtest htest).append ((ihbody hbody).append (ihrest hrest))
  | tryCatch body handler a b ihbody ihhandler =>
    obtain ⟨u, v, hbody, hhandler, hmerge⟩ := h
    have hend := (v.sameNames_mergeBranches u.env a b).trans hmerge.toSameNames
    exact (ihbody hbody).append (((ihhandler hhandler).before (u.sameNames_setEnv _)).later hend)
  | function scope body ih =>
    obtain ⟨u, hbody, hend⟩ := h
    exact (ih hbody).later ((u.sameNames_setEnv _).trans hend.toSameNames)
  | done | cut | mayThrow | exit | returns | breaks | continues => exact State.Aside.toSameNames h

/-! ### Sums -/

namespace Act

variable {scope : Nat} {t : SymbolTable} {id : SymbolId}

/-- The use that a step notes. -/
def reference? (scope : Nat) (t : SymbolTable) : Act → Option Reference
  | .read name | .assign name _ => (Outcome.of t scope name.name).reference? name.span
  | _ => none

theorem references_tableAfter (act : Act) : (act.tableAfter scope t).references =
    t.references ++ (act.reference? scope t).toList := by
  have hdeclare (n : Nat) (symbol : Symbol) :
      (t.declare n symbol).2.2.references = t.references := by
    unfold SymbolTable.declare
    split <;> rfl
  cases act with
  | read name =>
    cases hfound : t.lookup name.name scope with
    | none => simp [tableAfter, reference?, Outcome.reference?_of, hfound]
    | some x =>
      simp only [tableAfter, reference?, Outcome.reference?_of, hfound]
      rfl
  | assign name type =>
    cases hfound : t.lookup name.name scope with
    | none => simp [tableAfter, reference?, Outcome.reference?_of, hfound, hdeclare]
    | some x =>
      simp only [tableAfter, reference?, Outcome.reference?_of, hfound]
      split <;> rfl
  | declare name kind type => simp [tableAfter, reference?, hdeclare]
  | declareImport source name specifier type =>
    simp only [tableAfter, reference?, Option.toList_none, append_nil]
    split
    · exact hdeclare _ _
    · exact hdeclare _ _
  | recordFunction name type =>
    simp only [tableAfter, reference?, Option.toList_none, append_nil]
    split
    · split <;> rfl
    · rfl
  | countExported name =>
    simp only [tableAfter, reference?, Option.toList_none, append_nil]
    split <;> rfl
  | openScope kind span => simp [tableAfter, reference?, SymbolTable.push]

end Act

theorem readsOf_tableAfter (scope : Nat) (t : SymbolTable) (act : Act) (id : SymbolId) :
    (act.tableAfter scope t).readsOf id =
      t.readsOf id + if act.counts scope t = some id then 1 else 0 := by
  cases hsymbol : t.symbol? id with
  | some s => simp [SymbolTable.readsOf, hsymbol, act.symbol?_tableAfter hsymbol, act.reads_revised]
  | none =>
    have hcounts : act.counts scope t ≠ some id := by
      intro h
      have hsome := Act.symbol?_of_counts h
      rw [hsymbol] at hsome
      cases hsome
    rw [if_neg hcounts]
    cases hafter : (act.tableAfter scope t).symbol? id with
    | some s => simp [SymbolTable.readsOf, hsymbol, hafter, Act.reads_of_new hsymbol hafter]
    | none => simp [SymbolTable.readsOf, hsymbol, hafter]

namespace Deed

/-- The name that a deed reads, and what it stands for. -/
def reading? (d : Deed) : Option (Ident × Outcome) :=
  match d.act with
  | .read name => some (name, .of d.before.table d.place.scope name.name)
  | _ => none

/-- The symbol of an exported declaration that a deed counts as used. -/
def exported? (d : Deed) : Option SymbolId :=
  match d.act with
  | .countExported name => d.before.table.lookup name.name d.place.scope
  | _ => none

/-- The use that a deed notes. -/
def reference? (d : Deed) : Option Reference := d.act.reference? d.place.scope d.before.table

/-- The symbol of which a deed counts a use. -/
def counts (d : Deed) : Option SymbolId := d.act.counts d.place.scope d.before.table

/-- A name that a deed reads and that stands for nothing. -/
def undefined? (d : Deed) : Option (Located Finding) :=
  match d.reading? with
  | some (name, .undefined) => some ⟨name.span, .undefinedVariable name.name⟩
  | _ => none

end Deed

theorem Deed.undefined_finding? (d : Deed) :
    (d.act.finding? d.place.scope d.before.table).toList.filter (·.value.isUndefined) =
      d.undefined?.toList := by
  obtain ⟨ctx, act, s⟩ := d
  cases act with
  | read name =>
    simp only [Act.finding?, undefined?, reading?]
    split <;> simp_all [Finding.isUndefined]
  | assign name type =>
    simp only [Act.finding?, undefined?, reading?]
    split
    · split <;> rfl
    · rfl
  | declare name kind type | declareImport source name specifier type =>
    simp only [Act.finding?, undefined?, reading?]
    split <;> rfl
  | recordFunction name type | countExported name | openScope kind span => rfl

namespace Chain

variable {passes : PassSet} {s t : State} {ds : List Deed} (h : Chain passes s ds t)
include h

theorem extends_table : t.table.Extends s.table := by
  induction ds generalizing s with
  | nil => exact h.table ▸ .refl s.table
  | cons d ds ih =>
    exact (ih h.2.2).trans (h.2.1.table ▸ d.extends_after)

/-- What is in the table where a deed starts stays in it. -/
theorem extends_of_mem {d : Deed} (hd : d ∈ ds) : t.table.Extends d.before.table := by
  induction ds generalizing s with
  | nil => cases hd
  | cons x ds ih =>
    rcases mem_cons.mp hd with rfl | hd
    · have hfrom : Chain passes d.before (d :: ds) t := ⟨h.1, ⟨rfl, rfl, id⟩, h.2.2⟩
      exact hfrom.extends_table
    · exact ih h.2.2 hd

/-- Each deed of a chain starts after the start of the chain and ends before its end. -/
theorem around {d : Deed} (hd : d ∈ ds) :
    d.before.table.Extends s.table ∧ t.table.Extends d.after.table := by
  induction ds generalizing s with
  | nil => cases hd
  | cons x ds ih =>
    have hfirst : x.before.table.Extends s.table := h.2.1.table ▸ .refl s.table
    rcases mem_cons.mp hd with rfl | hd
    · exact ⟨hfirst, h.2.2.extends_table⟩
    · obtain ⟨hbefore, hafter⟩ := ih h.2.2 hd
      exact ⟨hbefore.trans (x.extends_after.trans hfirst), hafter⟩

theorem references_table :
    t.table.references = s.table.references ++ ds.filterMap Deed.reference? := by
  induction ds generalizing s with
  | nil => simp [h.table]
  | cons d ds ih =>
    rw [ih h.2.2, d.did.table, Act.references_tableAfter, ← h.2.1.table, append_assoc,
      filterMap_cons]
    change _ ++ (d.reference?.toList ++ _) = _
    cases d.reference? <;> rfl

theorem readsOf_table (id : SymbolId) :
    t.table.readsOf id = s.table.readsOf id + ds.countP (·.counts == some id) := by
  induction ds generalizing s with
  | nil => simp [h.table]
  | cons d ds ih =>
    rw [ih h.2.2, d.did.table, readsOf_tableAfter, ← h.2.1.table, countP_cons]
    simp only [Deed.counts, beq_iff_eq]
    omega

/-- What scope analysis finds about names, of some sort, is what the deeds find. -/
theorem filter_findings (hpasses : passes.enabled .scopeAnalysis)
    {p : Finding → Bool} (hp : ∀ f, p f = true → f.isOfName = true ∧ f.pass = .scopeAnalysis)
    {found? : Deed → Option (Located Finding)}
    (hfound : ∀ d : Deed, (d.act.finding? d.place.scope d.before.table).toList.filter (p ·.value) =
      (found? d).toList) :
    t.findings.filter (p ·.value) = s.findings.filter (p ·.value) ++ ds.filterMap found? := by
  have hsame {s t : State} (h : s.SameNames t) :
      t.findings.filter (p ·.value) = s.findings.filter (p ·.value) := by
    have hnames (l : List (Located Finding)) :
        (l.filter (·.value.isOfName)).filter (p ·.value) = l.filter (p ·.value) := by
      rw [filter_filter]
      refine filter_congr fun f _ => ?_
      cases hf : p f.value with
      | true => simp [(hp _ hf).1]
      | false => rfl
    rw [← hnames, h.findings, hnames]
  induction ds generalizing s with
  | nil => simp [hsame h]
  | cons d ds ih =>
    have henabled (l : List (Located Finding)) :
        (l.filter fun f => d.place.passes.enabled f.value.pass).filter (p ·.value) =
          l.filter (p ·.value) := by
      rw [filter_filter]
      refine filter_congr fun f _ => ?_
      cases hf : p f.value with
      | true => simp [(hp _ hf).2, h.1.passes, hpasses]
      | false => rfl
    rw [ih h.2.2, d.did.findings, filter_append, henabled, hfound, hsame h.2.1,
      append_assoc, filterMap_cons]
    cases found? d <;> rfl

theorem undefined_findings (hpasses : passes.enabled .scopeAnalysis) :
    t.findings.filter (·.value.isUndefined) =
      s.findings.filter (·.value.isUndefined) ++ ds.filterMap Deed.undefined? := by
  refine h.filter_findings hpasses (fun f hf => ?_) Deed.undefined_finding?
  cases f with
  | undefinedVariable name => exact ⟨rfl, rfl⟩
  | _ => cases hf

end Chain

end Walk

end ScriptCheck
