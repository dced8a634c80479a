/-
**Lowered rules mean what their sides say.**

A rule form says what a rule means: its left-hand side is met by the terms that it becomes when its
variables get values, and then its right-hand side becomes the result. Names are in capitals otherwise. The
lowered pattern and the lowered template say the same, as long as no name is mistaken for another one:
a dollar in front, a star, a colon, a comma form or the splicing mark would change what is read, and so
would a name that becomes a variable only in capitals.

* `SExpr.meaning`: what a side of a rule becomes;
* `SurfaceRule`: a rule in which no name is mistaken;
* `lowerTemplate_capitalized`: a right-hand side is read in capitals;
* `lowerRule_eq`: its pattern, its condition and its template;
* `inst_patternOf`, `fill_templateOf`: what the pattern and the template stand for;
* `lowerRule_means`: the lowered rule and what it does.
-/

import Mathlib.Data.List.TakeWhile
import TermLisp.Proofs.Expansion
import TermLisp.Proofs.Instances

namespace TermLisp

open Source Text

/-! ### What a rule says -/

namespace SExpr

/-- The names in a tree. -/
def names : SExpr → List String
  | atom (.symbol name) _ => [name]
  | atom _ _ => []
  | cons car cdr _ => car.names ++ cdr.names

/-- The variables in a side of a rule. -/
def variableNames (side : SExpr) : List String := side.names.filter isVariable

theorem variableNames_symbol (name : String) (pos : Option Pos) :
    (atom (.symbol name) pos).variableNames = if isVariable name then [name] else [] := by
  unfold variableNames names
  rw [List.filter_singleton]
  cases isVariable name <;> rfl

theorem variableNames_cons (car cdr : SExpr) (pos : Option Pos) :
    (cons car cdr pos).variableNames = car.variableNames ++ cdr.variableNames := List.filter_append ..

/-- What a side of a rule becomes: variables have values, and all other names are in capitals, in which
`T` and `NIL` are constants. -/
def meaning (values : String → Tree) : SExpr → Tree
  | atom (.symbol name) _ =>
    if isVariable name then values name else .leaf (.named (upperString name))
  | atom value _ => .leaf value
  | cons car cdr _ => .node (car.meaning values) (cdr.meaning values)

/-- A form as a template reads it: a name that is a variable in capitals stands for that variable. -/
def capitalized (names : List String) : SExpr → SExpr
  | atom (.symbol name) pos =>
    atom (.symbol (if upperString name ∈ names then upperString name else name)) pos
  | atom value pos => atom value pos
  | cons car cdr pos => cons (car.capitalized names) (cdr.capitalized names) pos

end SExpr

/-- A name that a rule takes as it is written. -/
structure PlainName (name : String) : Prop where
  star : '*' ∉ name.toList
  colon : ':' ∉ name.toList
  lead : name.toList.head? ≠ some '$'
  splice : name ≠ "~"
  comma : upperString name ≠ "COMMA"

/-- A rule in which no name is mistaken: they are plain, every variable on the right stands on the left as
well, and no other name is a variable in capitals. -/
structure SurfaceRule (left right : SExpr) : Prop where
  names : ∀ name ∈ left.names ++ right.names, PlainName name
  bound : ∀ name ∈ right.variableNames, name ∈ left.variableNames
  apart : ∀ name ∈ left.names ++ right.names, isVariable name = false →
    upperString name ∉ left.variableNames

/-! ### Names in capitals -/

namespace Text

theorem mem_capitalExpansions {code : Nat} {codes : List Nat}
    (found : capitalExpansions.lookup code = some codes) : (code, codes) ∈ capitalExpansions := by
  obtain ⟨front, back, whole, -⟩ := List.lookup_eq_some_iff.mp found
  rw [whole]
  exact List.mem_append_right front List.mem_cons_self

theorem expansion_ne_dollar : ∀ entry ∈ capitalExpansions,
    entry.2 ≠ [] ∧ ∀ code ∈ entry.2, Char.ofNat code ≠ '$' := by decide

/-- All capitals stand behind the dollar. -/
theorem lt_capital : ∀ run ∈ capitalRuns, ('$'.toNat : Int) < run.first + run.shift := by
  decide +kernel

theorem eq_of_ofNat_eq_dollar {code : Nat} (same : Char.ofNat code = '$') : code = '$'.toNat := by
  by_cases valid : code.isValidChar
  · rw [Char.ofNat, dif_pos valid] at same
    exact congrArg Char.toNat same
  · rw [Char.ofNat, dif_neg valid] at same
    exact absurd same (by decide)

theorem ofNat_capital_ne_dollar {run : CapitalRun} (member : run ∈ capitalRuns) {code capital : Nat}
    (found : run.capital? code = some capital) : Char.ofNat capital ≠ '$' := by
  intro same
  have dollar := eq_of_ofNat_eq_dollar same
  have behind := lt_capital run member
  unfold CapitalRun.capital? at found
  split at found
  · cases found
    omega
  · cases found

theorem toUpper_ne_dollar {c : Char} (ascii : c.toNat < 0x80) (other : c ≠ '$') : c.toUpper ≠ '$' := by
  have each : ∀ code < 0x80, Char.ofNat code ≠ '$' → (Char.ofNat code).toUpper ≠ '$' := by decide
  have known := each c.toNat ascii
  rw [Char.ofNat_toNat] at known
  exact known other

/-- No other character has a dollar in its capital form. -/
theorem dollar_notMem_upper {c : Char} (other : c ≠ '$') : '$' ∉ upper c := by
  unfold upper
  split
  · next ascii =>
    rw [List.mem_singleton]
    exact (toUpper_ne_dollar ascii other).symm
  split
  · next codes found =>
    intro member
    obtain ⟨code, known, dollar⟩ := List.mem_map.mp member
    exact (expansion_ne_dollar _ (mem_capitalExpansions found)).2 code known dollar
  split
  · next capital found =>
    obtain ⟨run, listed, capitalOf⟩ := List.exists_of_findSome?_eq_some found
    rw [List.mem_singleton]
    exact (ofNat_capital_ne_dollar listed capitalOf).symm
  · rw [List.mem_singleton]
    exact other.symm

theorem upper_ne_nil (c : Char) : upper c ≠ [] := by
  unfold upper
  split
  · exact List.cons_ne_nil _ _
  split
  · next codes found =>
    intro empty
    exact (expansion_ne_dollar _ (mem_capitalExpansions found)).1 (List.map_eq_nil_iff.mp empty)
  split <;> exact List.cons_ne_nil _ _

/-- A name that does not begin with a dollar does not do so in capitals. -/
theorem head?_upperCase_ne_dollar {text : List Char} (lead : text.head? ≠ some '$') :
    (upperCase text).head? ≠ some '$' := by
  cases text with
  | nil => exact nofun
  | cons c rest =>
    have other : c ≠ '$' := fun same => lead (congrArg some same)
    obtain ⟨first, more, capital⟩ := List.exists_cons_of_ne_nil (upper_ne_nil c)
    rw [upperCase, List.flatMap_cons, capital]
    intro same
    have member : '$' ∈ upper c := by
      rw [capital, ← Option.some.inj same]
      exact List.mem_cons_self
    exact dollar_notMem_upper other member

end Text

theorem SExpr.unaryCall_inj {name : String} {first second : SExpr}
    (same : SExpr.unaryCall name first = SExpr.unaryCall name second) : first = second :=
  (SExpr.cons.inj (SExpr.cons.inj same).2.1).1

/-! ### What lowering makes of plain names -/

namespace Source

/-- The atom for a name on a left-hand side. -/
def patternAtom (name : String) : Atom :=
  if isVariable name then .symbol ("$" ++ name) else .named (upperString name)

/-- The pattern for a left-hand side. -/
def patternOf : SExpr → SExpr
  | .atom (.symbol name) pos => .atom (patternAtom name) pos
  | .atom value pos => .atom value pos
  | .cons car cdr pos => .cons (patternOf car) (patternOf cdr) pos

/-- The template for a right-hand side. -/
def templateOf : SExpr → SExpr
  | .atom (.symbol name) pos =>
    if isVariable name then .unaryCall "COMMA" (.atom (.symbol name) pos)
    else .atom (.named (upperString name)) pos
  | .atom value pos => .atom value pos
  | .cons car cdr _ => .cons (templateOf car) (templateOf cdr) (templateOf car).pos

theorem upperString_of_isVariable {name : String} (known : isVariable name = true) :
    upperString name = name := by
  simp only [isVariable, Bool.and_eq_true, beq_iff_eq] at known
  exact known.1.2.symm

section Lower

variable {name : String} {tree : SExpr} {names : List String}

theorem withoutStar?_of_plain (plain : PlainName name) : withoutStar? name.toList = none := by
  unfold withoutStar?
  exact if_neg fun last => plain.star (List.mem_of_getLast? last)

theorem splitType_of_plain (plain : PlainName name) : splitType name = (name.toList, none) := by
  have whole : ∀ c ∈ name.toList, (c != ':') = true := by
    intro c member
    exact bne_iff_ne.mpr fun same => plain.colon (same ▸ member)
  rw [splitType, List.span_eq_takeWhile_dropWhile, List.takeWhile_eq_self_iff.mpr whole,
    List.dropWhile_eq_nil_iff.mpr whole]

theorem lowerName_of_plain (plain : PlainName name) (bound : Bound) : lowerName bound name =
    .ok (patternAtom name, { bound with names := bound.names ++ [name].filter isVariable }) := by
  unfold lowerName
  rw [splitType_of_plain plain]
  dsimp only
  unfold lowerBareName patternAtom
  rw [withoutStar?_of_plain plain]
  dsimp only
  cases known : isVariable name <;> simp [known]

theorem lowerPattern_eq (plain : ∀ name ∈ tree.names, PlainName name) (bound : Bound) :
    lowerPattern bound tree =
      .ok (patternOf tree, { bound with names := bound.names ++ tree.variableNames }) := by
  induction tree generalizing bound with
  | atom value pos =>
    cases value with
    | symbol name =>
      have known := lowerName_of_plain (plain name List.mem_cons_self) bound
      rw [lowerPattern, known]
      rfl
    | _ => simp [lowerPattern, patternOf, SExpr.variableNames, SExpr.names]
  | cons car cdr pos stepCar stepCdr =>
    obtain ⟨plainCar, plainCdr⟩ := List.forall_mem_append.mp plain
    rw [lowerPattern, stepCar plainCar]
    dsimp only [bind, Except.bind]
    rw [stepCdr plainCdr]
    simp [pure, Except.pure, patternOf, SExpr.variableNames_cons]

theorem isSymbol_eq_false {other : String} (absent : other ∉ tree.names) :
    tree.isSymbol other = false := by
  cases tree with
  | cons => rfl
  | atom value pos =>
    cases value with
    | symbol name => exact beq_eq_false_iff_ne.mpr fun same => absent (same ▸ List.mem_cons_self)
    | _ => rfl

/-- Names are taken for variables after they are folded. -/
theorem lowerTemplate_capitalized (plain : ∀ name ∈ tree.names, PlainName name)
    (bound : ∀ name ∈ tree.variableNames, name ∈ names)
    (taken : ∀ name ∈ tree.names, upperString name ∈ names → isVariable (upperString name) = true)
    (role : Role) :
    lowerTemplate names false role tree = .ok (templateOf (tree.capitalized names)) := by
  induction tree generalizing role with
  | atom value pos =>
    cases value with
    | symbol name =>
      by_cases member : upperString name ∈ names
      · have known := taken name List.mem_cons_self member
        simp [lowerTemplate, templateOf, SExpr.capitalized, known, member]
      · have known : isVariable name = false := by
          refine Bool.eq_false_iff.mpr fun known => member ?_
          rw [upperString_of_isVariable known]
          exact bound name (by simp [SExpr.variableNames_symbol, known])
        simp [lowerTemplate, templateOf, SExpr.capitalized, known, member]
    | _ => rfl
  | cons car cdr pos stepCar stepCdr =>
    obtain ⟨plainCar, plainCdr⟩ := List.forall_mem_append.mp plain
    obtain ⟨takenCar, takenCdr⟩ := List.forall_mem_append.mp taken
    rw [SExpr.variableNames_cons] at bound
    obtain ⟨boundCar, boundCdr⟩ := List.forall_mem_append.mp bound
    have noComma : car.isSymbol "COMMA" = false :=
      isSymbol_eq_false fun member => (plainCar _ member).comma (by decide)
    have noSplice : car.isSymbol "~" = false :=
      isSymbol_eq_false fun member => (plainCar _ member).splice rfl
    unfold lowerTemplate
    simp only [noComma, noSplice, Bool.and_false, Bool.or_self, Bool.false_eq_true, if_false]
    rw [stepCar plainCar boundCar takenCar, stepCdr plainCdr boundCdr takenCdr]
    rfl

/-- Where no other name is a variable in capitals, names are taken as they are written. -/
theorem capitalized_of_apart
    (apart : ∀ name ∈ tree.names, isVariable name = false → upperString name ∉ names) :
    tree.capitalized names = tree := by
  induction tree with
  | atom value pos =>
    cases value with
    | symbol name =>
      cases known : isVariable name with
      | true => simp [SExpr.capitalized, upperString_of_isVariable known]
      | false => simp [SExpr.capitalized, apart name List.mem_cons_self known]
    | _ => rfl
  | cons car cdr pos stepCar stepCdr =>
    obtain ⟨apartCar, apartCdr⟩ := List.forall_mem_append.mp apart
    rw [SExpr.capitalized, stepCar apartCar, stepCdr apartCdr]

theorem lowerTemplate_eq (plain : ∀ name ∈ tree.names, PlainName name)
    (bound : ∀ name ∈ tree.variableNames, name ∈ names)
    (apart : ∀ name ∈ tree.names, isVariable name = false → upperString name ∉ names) (role : Role) :
    lowerTemplate names false role tree = .ok (templateOf tree) := by
  have taken (name : String) (member : name ∈ tree.names) (folded : upperString name ∈ names) :
      isVariable (upperString name) = true := by
    cases known : isVariable name with
    | true => rwa [upperString_of_isVariable known]
    | false => exact absurd folded (apart name member known)
  rw [lowerTemplate_capitalized plain bound taken, capitalized_of_apart apart]

theorem lowerRule_eq {left right : SExpr} (rule : SurfaceRule left right) : lowerRule left right =
    .ok [.unaryCall "BACKQUOTE" (patternOf left), .atom .true none,
      .unaryCall "BACKQUOTE" (templateOf right)] := by
  obtain ⟨plainLeft, plainRight⟩ := List.forall_mem_append.mp rule.names
  obtain ⟨-, apart⟩ := List.forall_mem_append.mp rule.apart
  rw [lowerRule, lowerPattern_eq plainLeft]
  dsimp only [bind, Except.bind]
  rw [List.nil_append, lowerTemplate_eq plainRight rule.bound apart]
  rfl

end Lower

/-! ### What patterns and templates stand for -/

section Meaning

variable {name : String} {tree : SExpr} {values : String → Tree} {trees : Table Tree}

theorem behind?_of_head? {text : String} (lead : text.toList.head? ≠ some '$') (more : List Char) :
    behind? ('$' :: more) text = none := by
  unfold behind?
  refine if_neg fun begins => lead ?_
  cases known : text.toList with
  | nil => simp [known] at begins
  | cons c rest =>
    rw [known, List.isPrefixOf, Bool.and_eq_true, beq_iff_eq] at begins
    rw [← begins.1]
    rfl

theorem toList_dollar (name : String) : ("$" ++ name).toList = '$' :: name.toList :=
  String.toList_append

theorem behind?_dollar (name : String) : behind? ['$'] ("$" ++ name) = some name := by
  simp [behind?, List.isPrefixOf]

/-- A symbol `$X` does not stand for the rest of a list. -/
theorem behind?_twoDollars (lead : name.toList.head? ≠ some '$') :
    behind? ['$', '$'] ("$" ++ name) = none := by
  have inner := behind?_of_head? lead []
  unfold behind? at inner ⊢
  simpa [toList_dollar, List.isPrefixOf] using inner

theorem head?_upperString_ne_dollar (lead : name.toList.head? ≠ some '$') :
    (upperString name).toList.head? ≠ some '$' := by
  rw [upperString, String.toList_ofList]
  exact head?_upperCase_ne_dollar lead

theorem eq_of_symbol?_named {text other : String}
    (symbol : (Tree.leaf (.named text)).symbol? = some other) : text = other := by
  unfold Atom.named at symbol
  split at symbol
  · cases symbol
  · split at symbol
    · cases symbol
    · exact Option.some.inj symbol

theorem patternName?_named {text : String} (lead : text.toList.head? ≠ some '$') :
    (Tree.leaf (.named text)).patternName? = none := by
  unfold Atom.named
  split
  · rfl
  · split
    · rfl
    · exact behind?_of_head? lead []

theorem patternName?_patternAtom (plain : PlainName name) :
    (Tree.leaf (patternAtom name)).patternName? = if isVariable name then some name else none := by
  unfold patternAtom
  split
  · exact behind?_dollar name
  · exact patternName?_named (head?_upperString_ne_dollar plain.lead)

/-- The symbols in a pattern are names behind a dollar, and names in capitals. -/
theorem symbol?_patternOf {other : String} (symbol : (patternOf tree).bare.symbol? = some other) :
    ∃ name ∈ tree.names, other = "$" ++ name ∨ other = upperString name := by
  cases tree with
  | cons => cases symbol
  | atom value pos =>
    cases value with
    | symbol name =>
      refine ⟨name, List.mem_cons_self, ?_⟩
      simp only [patternOf, patternAtom, SExpr.bare] at symbol
      split at symbol
      · exact .inl (Option.some.inj symbol).symm
      · exact .inr (eq_of_symbol?_named symbol).symm
    | _ => cases symbol

theorem patternName?_pair {rest : Tree} (plain : ∀ name ∈ tree.names, PlainName name) :
    (Tree.node (patternOf tree).bare rest).patternName? = none := by
  unfold Tree.patternName?
  refine Option.bind_eq_none_iff.mpr fun other symbol => ?_
  obtain ⟨name, member, rfl | rfl⟩ := symbol?_patternOf symbol
  · exact behind?_twoDollars (plain name member).lead
  · exact behind?_of_head? (head?_upperString_ne_dollar (plain name member).lead) ['$']

theorem inst_patternOf (plain : ∀ name ∈ tree.names, PlainName name) (values : String → Tree) :
    (patternOf tree).bare.inst values = tree.meaning values := by
  induction tree with
  | atom value pos =>
    cases value with
    | symbol name =>
      have named := patternName?_patternAtom (plain name List.mem_cons_self)
      simp only [patternOf, SExpr.bare, SExpr.meaning]
      split at named
      · next known => rw [Tree.inst_variable named, if_pos known]
      · next known => rw [Tree.inst_atom named rfl, if_neg known, patternAtom, if_neg known]
    | _ => exact Tree.inst_atom rfl rfl values
  | cons car cdr pos stepCar stepCdr =>
    obtain ⟨plainCar, plainCdr⟩ := List.forall_mem_append.mp plain
    simp only [patternOf, SExpr.bare, SExpr.meaning]
    rw [Tree.inst_node (patternName?_pair plainCar), stepCar plainCar, stepCdr plainCdr]

theorem names_patternOf (plain : ∀ name ∈ tree.names, PlainName name) :
    (patternOf tree).bare.names = tree.variableNames := by
  induction tree with
  | atom value pos =>
    cases value with
    | symbol name =>
      have named := patternName?_patternAtom (plain name List.mem_cons_self)
      rw [patternOf, SExpr.bare, SExpr.variableNames_symbol]
      split at named
      · next known => rw [Tree.names_variable named, if_pos known]
      · next known => rw [Tree.names_atom named rfl, if_neg known]
    | _ => exact Tree.names_atom rfl rfl
  | cons car cdr pos stepCar stepCdr =>
    obtain ⟨plainCar, plainCdr⟩ := List.forall_mem_append.mp plain
    rw [patternOf, SExpr.bare, SExpr.variableNames_cons, Tree.names_node (patternName?_pair plainCar),
      stepCar plainCar, stepCdr plainCdr]

/-- There are no comma forms in a pattern. -/
theorem fill_patternOf (plain : ∀ name ∈ tree.names, PlainName name) (trees : Table Tree) :
    (patternOf tree).bare.fill trees = some (patternOf tree).bare := by
  induction tree with
  | atom value pos => cases value <;> rfl
  | cons car cdr pos stepCar stepCdr =>
    obtain ⟨plainCar, plainCdr⟩ := List.forall_mem_append.mp plain
    have noComma : (patternOf car).bare.symbol? ≠ some "COMMA" := by
      intro symbol
      obtain ⟨name, member, same | same⟩ := symbol?_patternOf symbol
      · have lead := congrArg String.toList same
        rw [toList_dollar] at lead
        exact absurd (List.cons.inj lead).1 (by decide)
      · exact (plainCar name member).comma same.symm
    simp only [patternOf, SExpr.bare]
    rw [Tree.fill_node noComma, stepCar plainCar, stepCdr plainCdr]
    rfl

theorem symbol?_templateOf {other : String} (symbol : (templateOf tree).bare.symbol? = some other) :
    ∃ name ∈ tree.names, other = upperString name := by
  cases tree with
  | cons => cases symbol
  | atom value pos =>
    cases value with
    | symbol name =>
      refine ⟨name, List.mem_cons_self, ?_⟩
      simp only [templateOf] at symbol
      split at symbol
      · cases symbol
      · exact (eq_of_symbol?_named symbol).symm
    | _ => cases symbol

/-- A template with the values of the variables in place of the comma forms. -/
theorem fill_templateOf (plain : ∀ name ∈ tree.names, PlainName name)
    (bound : ∀ name ∈ tree.variableNames, trees.find? name = some (values name)) :
    (templateOf tree).bare.fill trees = some (tree.meaning values) := by
  induction tree with
  | atom value pos =>
    cases value with
    | symbol name =>
      simp only [templateOf, SExpr.meaning]
      split
      · next known =>
        have member : name ∈ (SExpr.atom (.symbol name) pos).variableNames := by
          simp [SExpr.variableNames_symbol, known]
        exact (Tree.fill_comma rfl rfl).trans (bound name member)
      · rfl
    | _ => rfl
  | cons car cdr pos stepCar stepCdr =>
    obtain ⟨plainCar, plainCdr⟩ := List.forall_mem_append.mp plain
    rw [SExpr.variableNames_cons] at bound
    obtain ⟨boundCar, boundCdr⟩ := List.forall_mem_append.mp bound
    have noComma : (templateOf car).bare.symbol? ≠ some "COMMA" := by
      intro symbol
      obtain ⟨name, member, same⟩ := symbol?_templateOf symbol
      exact (plainCar name member).comma same.symm
    simp only [templateOf, SExpr.bare, SExpr.meaning]
    rw [Tree.fill_node noComma, stepCar plainCar boundCar, stepCdr plainCdr boundCdr]
    rfl

end Meaning

end Source

/-! ### Lowered rules at work -/

open Machine Evaluator

theorem Heap.Bears.retained {heap later : Heap} {code : Set NodeId} {bindings : Bindings}
    {trees : Table Tree} (bears : heap.Bears code bindings trees) (retains : heap.Retains later) :
    later.Bears code bindings trees where
  entries := bears.entries.imp fun _ _ known => ⟨known.1, known.2.retained retains⟩
  nodup := bears.nodup

theorem Environment.gives_empty (env : Environment) (heap : Heap) (code : Set NodeId) :
    env.Gives heap code .empty := by
  intro name tree found
  rw [Table.find?_empty] at found
  cases found

/-- In the scope of a match variables stand for what they are bound to. -/
theorem Heap.Bears.gives {heap : Heap} {code : Set NodeId} {bindings : Bindings} {trees : Table Tree}
    (bears : heap.Bears code bindings trees) (interp : Interpreter) :
    (interp.mapEnv (·.pushWith bindings.entries)).env.Gives heap code trees :=
  fun _ _ bound => bears.lookup interp.env bound

/-- Wherever a form stands its value shows a tree, given two levels and a round for each of its parts. -/
def SExpr.Evaluates (form : SExpr) (interp : Interpreter) (heap : Heap) (code : Set NodeId)
    (result : Tree) : Prop :=
  ∀ (id : NodeId) (rounds levels : Nat), heap.Shows code id form.bare → form.bare.size ≤ rounds →
    2 ≤ levels →
    Returns (serve rounds levels (.value id)) interp heap fun value later => later.Shows code value result

theorem evaluates_backquote {template : SExpr} {interp : Interpreter} {heap : Heap}
    {code : Set NodeId} {trees : Table Tree} {result : Tree} (printable : interp.Printable heap)
    (gives : interp.env.Gives heap code trees) (filled : template.bare.fill trees = some result) :
    (SExpr.unaryCall "BACKQUOTE" template).Evaluates interp heap code result := by
  intro id rounds levels shows small deep
  refine returns_backquote printable gives shows filled deep (lt_of_lt_of_le ?_ small)
  show template.bare.size < 1 + (template.bare.size + 1 + 1) + 1
  omega

namespace Source

section Rule

variable {left right : SExpr} {tree : Tree} {values : String → Tree} {trees : Table Tree}

/-- A term is matched if and only if the left-hand side becomes it. -/
theorem match?_patternOf_isSome_iff (plain : ∀ name ∈ left.names, PlainName name) (free : tree.FloatFree)
    (steady : tree.Steady) : ((patternOf left).bare.match? tree).isSome ↔
      ∃ values, (left.meaning values).same tree = true := by
  simp only [Tree.match?_isSome_iff free steady, inst_patternOf plain, Tree.same_iff_eq free steady]

/-- A match binds the variables to the only values that they can have. -/
theorem find?_of_match?_patternOf (plain : ∀ name ∈ left.names, PlainName name) (free : tree.FloatFree)
    (steady : tree.Steady) (found : (patternOf left).bare.match? tree = some trees)
    (same : (left.meaning values).same tree = true) :
    ∀ name ∈ left.variableNames, trees.find? name = some (values name) := by
  rw [Tree.same_iff_eq free steady, ← inst_patternOf plain] at same
  rw [← names_patternOf plain]
  exact fun name member => Tree.find?_of_match? free steady found same member

/-- **A rule without mistaken names is lowered to a pattern, the condition `T` and a template. The pattern
evaluates, and its value matches a term without floats if and only if the term equals what the left-hand
side becomes under some values of the variables. In the scope of the match the template then evaluates to
what the right-hand side becomes under these values.** -/
theorem lowerRule_means (rule : SurfaceRule left right) :
    ∃ pattern template : SExpr,
      lowerRule left right = .ok [.unaryCall "BACKQUOTE" pattern, .atom .true none,
        .unaryCall "BACKQUOTE" template] ∧
      (∀ (interp : Interpreter) (heap : Heap) (code : Set NodeId), interp.Showable heap →
        (SExpr.unaryCall "BACKQUOTE" pattern).Evaluates interp heap code pattern.bare) ∧
      ∀ (heap : Heap) (code : Set NodeId) (node term : NodeId) (tree : Tree),
        heap.Shows code node pattern.bare → heap.Shows code term tree → tree.FloatFree →
        ∃ outcome, heap.match? node term = some outcome ∧
          (outcome.isSome ↔ ∃ values, (left.meaning values).same tree = true) ∧
          ∀ bindings ∈ outcome, ∀ values, (left.meaning values).same tree = true →
            ∀ (interp : Interpreter) (later : Heap), heap.Retains later → interp.Showable later →
              (SExpr.unaryCall "BACKQUOTE" template).Evaluates
                (interp.mapEnv (·.pushWith bindings.entries)) later code (right.meaning values) := by
  obtain ⟨plainLeft, plainRight⟩ := List.forall_mem_append.mp rule.names
  refine ⟨patternOf left, templateOf right, lowerRule_eq rule, fun interp heap code showable => ?_, ?_⟩
  · exact evaluates_backquote showable.printable (interp.env.gives_empty heap code)
      (fill_patternOf plainLeft .empty)
  intro heap code node term tree shows shown free
  have steady := shown.steady free
  obtain ⟨outcome, found, related⟩ := (shown.holds free).exists_match? shows
  refine ⟨outcome, found, ?_, ?_⟩
  · rw [Heap.isSome_of_rel related, match?_patternOf_isSome_iff plainLeft free steady]
  · rintro bindings ⟨⟩ values same interp later retains showable
    obtain ⟨trees, met, bears⟩ := Heap.exists_of_rel_some related
    have bound := find?_of_match?_patternOf plainLeft free steady met same
    have kept := bears.retained retains
    exact evaluates_backquote (showable.printable.pushWith kept.exists_shows) (kept.gives interp)
      (fill_templateOf plainRight fun name member => bound name (rule.bound name member))

/-- The rule `(f X) -> (g X X)` and the term `(F 1)`, which becomes `(G 1 1)`. -/
theorem lowerRule_means_twice :
    let heap : Heap := ⟨#[⟨.atom .nil, none⟩, ⟨.atom (.symbol "$X"), none⟩, ⟨.cons 1 0, none⟩,
      ⟨.atom (.symbol "F"), none⟩, ⟨.cons 3 2, none⟩, ⟨.atom (.int 1), none⟩, ⟨.cons 5 0, none⟩,
      ⟨.cons 3 6, none⟩, ⟨.atom (.symbol "X"), none⟩, ⟨.cons 8 0, none⟩,
      ⟨.atom (.symbol "COMMA"), none⟩, ⟨.cons 10 9, none⟩, ⟨.cons 11 0, none⟩, ⟨.cons 11 12, none⟩,
      ⟨.atom (.symbol "G"), none⟩, ⟨.cons 14 13, none⟩, ⟨.cons 15 0, none⟩,
      ⟨.atom (.symbol "BACKQUOTE"), none⟩, ⟨.cons 17 16, none⟩]⟩
    ∃ bindings value after later, heap.match? 4 7 = some (some bindings) ∧
      (serve 100 2 (.value 18)).execute
        ((Interpreter.fresh {}).mapEnv (·.pushWith bindings.entries)) heap =
          some ((.ok value, after), later) ∧
      later.Shows .univ value (.node (.leaf (.symbol "G"))
        (.node (.leaf (.int 1)) (.node (.leaf (.int 1)) (.leaf .nil)))) := by
  intro heap
  have rule : SurfaceRule (.list [.symbol "f", .symbol "X"])
      (.list [.symbol "g", .symbol "X", .symbol "X"]) := by
    refine ⟨?_, by decide, by decide⟩
    intro name member
    have listed : name ∈ ["f", "X", "g", "X", "X"] := member
    simp only [List.mem_cons, List.not_mem_nil, or_false] at listed
    rcases listed with rfl | rfl | rfl | rfl | rfl <;>
      exact ⟨by decide, by decide, by decide, by decide, by decide⟩
  obtain ⟨pattern, template, lowered, -, means⟩ := lowerRule_means rule
  have forms := Except.ok.inj (lowered.symm.trans (lowerRule_eq rule))
  have patterns : pattern = patternOf (.list [.symbol "f", .symbol "X"]) :=
    SExpr.unaryCall_inj (List.cons.inj forms).1
  have templates : template = templateOf (.list [.symbol "g", .symbol "X", .symbol "X"]) :=
    SExpr.unaryCall_inj (List.cons.inj (List.cons.inj (List.cons.inj forms).2).2).1
  subst patterns templates
  have last : heap.Shows .univ 0 (.leaf .nil) := .leaf (by decide) rfl nofun
  have head : heap.Shows .univ 3 (.leaf (.symbol "F")) := .leaf (by decide) rfl nofun
  have shows : heap.Shows .univ 4
      (.node (.leaf (.symbol "F")) (.node (.leaf (.symbol "$X")) (.leaf .nil))) :=
    .node rfl head (.node rfl (.leaf (by decide) rfl nofun) last)
  have shown : heap.Shows .univ 7
      (.node (.leaf (.symbol "F")) (.node (.leaf (.int 1)) (.leaf .nil))) :=
    .node rfl head (.node rfl (.leaf (by decide) rfl nofun) last)
  obtain ⟨outcome, found, succeeds, becomes⟩ :=
    means heap .univ 4 7 _ shows shown ⟨trivial, trivial, trivial⟩
  have equal : (SExpr.meaning (fun _ => .leaf (.int 1)) (.list [.symbol "f", .symbol "X"])).same
      (.node (.leaf (.symbol "F")) (.node (.leaf (.int 1)) (.leaf .nil))) = true := by decide
  obtain ⟨bindings, rfl⟩ := Option.isSome_iff_exists.mp (succeeds.mpr ⟨_, equal⟩)
  have comma : heap.Shows .univ 11
      (.node (.leaf (.symbol "COMMA")) (.node (.leaf (.symbol "X")) (.leaf .nil))) :=
    .node rfl (.leaf (by decide) rfl nofun) (.node rfl (.leaf (by decide) rfl nofun) last)
  have form : heap.Shows .univ 18
      (SExpr.unaryCall "BACKQUOTE" (templateOf (.list [.symbol "g", .symbol "X", .symbol "X"]))).bare :=
    .node rfl (.leaf (by decide) rfl nofun) (.node rfl (.node rfl (.leaf (by decide) rfl nofun)
      (.node rfl comma (.node rfl comma last))) last)
  obtain ⟨value, after, later, ran, -, -, known⟩ := becomes bindings rfl _ equal (.fresh {}) heap (.refl heap)
    (.inl rfl) 18 100 2 form (by decide) le_rfl
  cases value with
  | ok value => exact ⟨bindings, value, after, later, found, ran, known⟩
  | error error => exact absurd rfl known.2

end Rule

end Source

end TermLisp
