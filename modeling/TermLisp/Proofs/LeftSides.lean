/-
**Rules that are accepted.**

Lowering a left-hand side fails for an unknown type only. Otherwise the pattern is the left-hand side with
an atom for each name, and what it binds and tests can be read off the names: each is taken without its type,
and it may be a variable, or a variable with a star behind it. So an accepted rule form is the call of
`REWRITE` with a pattern, a condition and a template for each of its rules.

* `loweredPattern`, `boundNames`, `typedNames`: what becomes of a left-hand side;
* `lowerPattern_ok`: an accepted left-hand side;
* `lowerRule_ok`: an accepted rule;
* `lowerForm_ok`: an accepted rule form.
-/

import TermLisp.Proofs.Documents
import TermLisp.Proofs.Lowering

namespace TermLisp.Source

open Text

/-! ### Names on a left-hand side -/

/-- A name without its type. -/
def bareName (name : String) : String :=
  match splitType name with
  | (front, some _) => String.ofList front
  | (_, none) => name

/-- A name that has a type, without it. -/
def typedName? (name : String) : Option String :=
  match splitType name with
  | (front, some _) => some (String.ofList front)
  | (_, none) => none

theorem bareName_of_typedName? {name front : String} (typed : typedName? name = some front) :
    bareName name = front := by
  unfold typedName? at typed
  unfold bareName
  split at typed
  · exact Option.some.inj typed
  · cases typed

/-- The name that the test of a name with a type asks for. -/
def testedName (front : String) : String := upperString (String.ofList (withoutStars front.toList))

/-- A left-hand side as a pattern. -/
def loweredPattern : SExpr → SExpr
  | .atom (.symbol name) pos => .atom (lowerBareName (bareName name)).1 pos
  | .atom value pos => .atom value pos
  | .cons car cdr pos => .cons (loweredPattern car) (loweredPattern cdr) pos

/-- The variables that a left-hand side binds. -/
def boundNames (left : SExpr) : List String :=
  left.names.filterMap fun name => (lowerBareName (bareName name)).2

/-- The names with a type in a left-hand side, without it. -/
def typedNames (left : SExpr) : List String := left.names.filterMap typedName?

/-- The names that the condition of a rule asks for. -/
def testedNames (left : SExpr) : List String := (typedNames left).map testedName

theorem filterMap_single {α β : Type} (pick : α → Option β) (item : α) :
    [item].filterMap pick = (pick item).toList := by
  rw [List.filterMap_cons]
  cases pick item <;> rfl

theorem boundNames_symbol (name : String) (pos : Option Pos) :
    boundNames (.atom (.symbol name) pos) = (lowerBareName (bareName name)).2.toList := filterMap_single _ _

theorem boundNames_cons (car cdr : SExpr) (pos : Option Pos) :
    boundNames (.cons car cdr pos) = boundNames car ++ boundNames cdr := List.filterMap_append

theorem testedNames_symbol (name : String) (pos : Option Pos) :
    testedNames (.atom (.symbol name) pos) = (typedName? name).toList.map testedName :=
  congrArg (List.map testedName) (filterMap_single typedName? name)

theorem testedNames_cons (car cdr : SExpr) (pos : Option Pos) :
    testedNames (.cons car cdr pos) = testedNames car ++ testedNames cdr :=
  (congrArg (List.map testedName) List.filterMap_append).trans List.map_append

variable {name : String} {left right : SExpr} {bound : Bound}

/-- A name stands for the rest of a list: it is a variable with a star behind it. -/
def IsRest (name : String) : Prop := ∃ front, name = front ++ "*" ∧ isVariable front = true

/-- A name without a type is a variable with a star behind it, a variable, or a constant. -/
theorem lowerBareName_cases (name : String) :
    (∃ front, name = front ++ "*" ∧ isVariable front = true ∧
      lowerBareName name = (.symbol ("$$" ++ front), some front)) ∨
    (¬ IsRest name ∧ isVariable name = true ∧ lowerBareName name = (.symbol ("$" ++ name), some name)) ∨
    (¬ IsRest name ∧ isVariable name = false ∧
      lowerBareName name = (.named (upperString name), none)) := by
  have starred {front : String} (same : name = front ++ "*") :
      withoutStar? name.toList = some front.toList := by
    rw [same, withoutStar?, String.toList_append]
    simp
  by_cases rest : IsRest name
  · obtain ⟨front, same, known⟩ := rest
    refine .inl ⟨front, same, known, ?_⟩
    unfold lowerBareName
    rw [starred same]
    dsimp only
    rw [String.ofList_toList, if_pos known]
  · right
    have bare : lowerBareName name = if isVariable name then (.symbol ("$" ++ name), some name)
        else (.named (upperString name), none) := by
      unfold lowerBareName withoutStar?
      by_cases last : name.toList.getLast? = some '*'
      · have same : name = String.ofList name.toList.dropLast ++ "*" := by
          apply String.toList_inj.mp
          rw [String.toList_append, String.toList_ofList]
          exact (List.dropLast_append_getLast? _ last).symm
        rw [if_pos last]
        exact if_neg fun known => rest ⟨_, same, known⟩
      · rw [if_neg last]
    cases known : isVariable name with
    | true => exact .inl ⟨rest, rfl, by rw [bare, known]; rfl⟩
    | false => exact .inr ⟨rest, rfl, by rw [bare, known]; rfl⟩

theorem isVariable_of_lowerBareName {written : String} (known : (lowerBareName written).2 = some name) :
    isVariable name = true := by
  obtain ⟨front, -, variableFront, same⟩ | ⟨-, variableWritten, same⟩ | ⟨-, -, same⟩ :=
    lowerBareName_cases written
  · rw [same] at known
    exact Option.some.inj known ▸ variableFront
  · rw [same] at known
    exact Option.some.inj known ▸ variableWritten
  · rw [same] at known
    cases known

/-- Only variables are bound. -/
theorem isVariable_of_mem_boundNames (member : name ∈ boundNames left) : isVariable name = true := by
  obtain ⟨written, -, known⟩ := List.mem_filterMap.mp member
  exact isVariable_of_lowerBareName known

theorem lowerName_ok {result : Atom × Bound} (lowered : lowerName bound name = .ok result) :
    result = ((lowerBareName (bareName name)).1,
      ⟨bound.names ++ (lowerBareName (bareName name)).2.toList,
        bound.tests ++ ((typedName? name).toList.map testedName)⟩) := by
  unfold lowerName at lowered
  unfold bareName typedName?
  rcases split : splitType name with ⟨front, none | type⟩
  · rw [split] at lowered
    dsimp only at lowered ⊢
    generalize lowerBareName name = bare at lowered ⊢
    cases lowered
    rw [Option.toList_none, List.map_nil, List.append_nil]
  · rw [split] at lowered
    dsimp only at lowered ⊢
    generalize lowerBareName (String.ofList front) = bare at lowered ⊢
    split at lowered
    · cases lowered
      rw [Option.toList_some, List.map_singleton, testedName, String.toList_ofList]
    · cases lowered

/-- The pattern of an accepted left-hand side, with what it binds and tests. -/
theorem lowerPattern_ok {pattern : SExpr} {after : Bound}
    (lowered : lowerPattern bound left = .ok (pattern, after)) :
    pattern = loweredPattern left ∧
      after = ⟨bound.names ++ boundNames left, bound.tests ++ testedNames left⟩ := by
  induction left generalizing bound pattern after with
  | atom value pos =>
    cases value with
    | symbol name =>
      rw [lowerPattern] at lowered
      obtain ⟨result, named, same⟩ := bind_eq_ok.mp lowered
      cases same
      rw [lowerName_ok named, boundNames_symbol, testedNames_symbol]
      exact ⟨rfl, rfl⟩
    | _ =>
      cases lowered
      exact ⟨rfl, congrArg₂ Bound.mk (List.append_nil _).symm (List.append_nil _).symm⟩
  | cons car cdr pos stepCar stepCdr =>
    rw [lowerPattern] at lowered
    obtain ⟨⟨first, middle⟩, front, further⟩ := bind_eq_ok.mp lowered
    obtain ⟨⟨rest, last⟩, back, same⟩ := bind_eq_ok.mp further
    cases same
    obtain ⟨rfl, rfl⟩ := stepCar front
    obtain ⟨rfl, rfl⟩ := stepCdr back
    rw [boundNames_cons, testedNames_cons, ← List.append_assoc, ← List.append_assoc]
    exact ⟨rfl, rfl⟩

/-- The pattern, the condition and the template of an accepted rule. -/
theorem lowerRule_ok {rule : List SExpr} (lowered : lowerRule left right = .ok rule) :
    ∃ template, lowerTemplate (boundNames left) false .item right = .ok template ∧
      rule = [.unaryCall "BACKQUOTE" (loweredPattern left), condition (testedNames left),
        .unaryCall "BACKQUOTE" template] := by
  unfold lowerRule at lowered
  obtain ⟨⟨pattern, after⟩, front, further⟩ := bind_eq_ok.mp lowered
  obtain ⟨template, made, same⟩ := bind_eq_ok.mp further
  cases same
  obtain ⟨rfl, rfl⟩ := lowerPattern_ok front
  exact ⟨template, made, rfl⟩

/-! ### Rule forms -/

/-- The left-hand sides and the right-hand sides of the rules of a rule form. -/
def sides : List SExpr → List (SExpr × SExpr)
  | left :: _ :: right :: rest => (left, right) :: sides rest
  | _ => []

theorem lowerRules_ok {items lowered : List SExpr} (accepted : lowerRules items = .ok lowered) :
    ∃ rules, List.Forall₂ (fun side rule => lowerRule side.1 side.2 = .ok rule) (sides items) rules ∧
      lowered = rules.flatten := by
  fun_induction lowerRules items generalizing lowered with
  | case1 =>
    cases accepted
    exact ⟨[], .nil, rfl⟩
  | case2 item => cases accepted
  | case3 item arrow => cases accepted
  | case4 left arrow right rest isArrow step =>
    obtain ⟨rule, first, further⟩ := bind_eq_ok.mp accepted
    obtain ⟨others, behind, same⟩ := bind_eq_ok.mp further
    cases same
    obtain ⟨rules, each, rfl⟩ := step behind
    exact ⟨rule :: rules, .cons first each, rfl⟩
  | case5 left arrow right rest noArrow => cases accepted

/-- An accepted rule form is a call of `REWRITE` with what its rules are lowered to. -/
theorem lowerForm_ok {items : List SExpr} {form : SExpr} (accepted : lowerForm items = .ok form) :
    ∃ head input rest rules, items = head :: input :: rest ∧
      List.Forall₂ (fun side rule => lowerRule side.1 side.2 = .ok rule) (sides rest) rules ∧
      form = .list [.atom (.symbol "REWRITE") head.pos, foldNames input,
        .unaryCall "QUOTE" (.list rules.flatten)] := by
  match items with
  | [] => cases accepted
  | [_] => cases accepted
  | head :: input :: rest =>
    rw [lowerForm] at accepted
    obtain ⟨lowered, made, same⟩ := bind_eq_ok.mp accepted
    cases same
    obtain ⟨rules, each, rfl⟩ := lowerRules_ok made
    exact ⟨head, input, rest, rules, rfl, each, rfl⟩

end TermLisp.Source
