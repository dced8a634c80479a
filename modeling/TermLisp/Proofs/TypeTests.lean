/-
**The type checks of rules.**

The condition of a lowered rule asks for names: for each name with a type on the left-hand side it asks for
the name without its stars. The pattern has a variable for that name if the name is a variable, with one star
behind it at most. Otherwise it has something else: a star that is left over belongs to the variable, and a
name that is no variable is a constant. So a rule whose names with a type all fit asks for variables of its
pattern only. A match binds them, unless they stand behind a variable for the rest of a list or such a
variable stands where no rest is; and then the condition finds them, whatever they mean outside.

* `fits_iff`: the names whose test asks for the variable that they become;
* `names_loweredPattern`: the variables that a match binds;
* `Heap.testedFrom_condition`: what a lowered condition asks for;
* `readsBound_of_names`: a condition that asks for bound variables only;
* `testsBound_of_accepted`: the tests of an accepted rule form.
-/

import Mathlib.Data.List.DropRight
import TermLisp.Proofs.LeftSides
import TermLisp.Proofs.Trying

namespace TermLisp

open Source Text Machine Evaluator

namespace Source

variable {name front : String} {left pattern : SExpr} {tests : List String}

/-! ### Names without their stars -/

theorem withoutStars_eq_self_iff {text : List Char} :
    withoutStars text = text ↔ text.getLast? ≠ some '*' := by
  have same : withoutStars text = text.rdropWhile (· == '*') := rfl
  rw [same, List.rdropWhile_eq_self_iff]
  cases text using List.reverseRecOn with
  | nil => exact iff_of_true (fun nonempty => absurd rfl nonempty) nofun
  | append_singleton text c _ => simp

theorem testedName_concat (front : String) : testedName (front ++ "*") = testedName front := by
  have same : withoutStars (front ++ "*").toList = withoutStars front.toList := by
    rw [String.toList_append]
    exact List.rdropWhile_concat_pos _ _ _ rfl
  unfold testedName
  rw [same]

theorem upperCase_stars (count : Nat) :
    upperCase (List.replicate count '*') = List.replicate count '*' := by
  induction count with
  | zero => rfl
  | succ count step =>
    show upper '*' ++ upperCase (List.replicate count '*') = _
    rw [step]
    rfl

/-- A name in capitals is what its test asks for, with the stars behind it. -/
theorem exists_stars (front : String) : ∃ count,
    front.toList = withoutStars front.toList ++ List.replicate count '*' ∧
      (upperString front).toList = (testedName front).toList ++ List.replicate count '*' := by
  have stars : front.toList.rtakeWhile (· == '*') =
      List.replicate (front.toList.rtakeWhile (· == '*')).length '*' := by
    refine List.eq_replicate_of_mem fun c member => ?_
    exact beq_iff_eq.mp (List.mem_rtakeWhile_imp (p := (· == '*')) member)
  have whole : withoutStars front.toList ++ front.toList.rtakeWhile (· == '*') = front.toList :=
    List.rdropWhile_append_rtakeWhile
  rw [stars] at whole
  refine ⟨_, whole.symm, ?_⟩
  rw [testedName, upperString, upperString, String.toList_ofList, String.toList_ofList, String.toList_ofList,
    ← upperCase_stars, ← upperCase_append, whole]

/-- Dropping stars drops no dollar. -/
theorem count_dollar (front : String) :
    (upperString front).toList.count '$' = (testedName front).toList.count '$' := by
  obtain ⟨count, -, whole⟩ := exists_stars front
  rw [whole, List.count_append, List.count_replicate, if_neg (by decide), Nat.add_zero]

/-- The test of a variable asks for the variable itself if and only if it ends in no star. -/
theorem testedName_eq_iff (known : isVariable name = true) :
    testedName name = name ↔ name.toList.getLast? ≠ some '*' := by
  rw [← withoutStars_eq_self_iff]
  constructor
  · intro same
    obtain ⟨count, whole, capitals⟩ := exists_stars name
    rw [upperString_of_isVariable known, same] at capitals
    have none : List.replicate count '*' = [] := List.self_eq_append_right.mp capitals
    rw [none, List.append_nil] at whole
    exact whole.symm
  · intro same
    rw [testedName, same, String.ofList_toList, upperString_of_isVariable known]

/-! ### Tests of their own names -/

/-- A name is a variable that ends in no star, or such a variable with one star behind it. -/
def Fits (front : String) : Prop :=
  ∃ name, isVariable name = true ∧ name.toList.getLast? ≠ some '*' ∧ (front = name ∨ front = name ++ "*")

/-- A symbol of a pattern stands for a variable: for its value, or for the rest of a list. -/
def StandsFor (symbol name : String) : Prop := symbol = "$" ++ name ∨ symbol = "$$" ++ name

/-- Where there are as many dollars in two names, a symbol stands for one with the dollars of the other. -/
theorem standsFor_iff {other : String} (dollars : name.toList.count '$' = other.toList.count '$') :
    (StandsFor ("$" ++ name) other ↔ name = other) ∧ (StandsFor ("$$" ++ name) other ↔ name = other) ∧
      ¬ StandsFor name other := by
  have one (text : String) : ("$" ++ text).toList.count '$' = text.toList.count '$' + 1 := by
    rw [toList_dollar, List.count_cons_self]
  have two (text : String) : ("$$" ++ text).toList.count '$' = text.toList.count '$' + 2 := by
    have whole : ("$$" ++ text).toList = '$' :: '$' :: text.toList := String.toList_append
    rw [whole, List.count_cons_self, List.count_cons_self]
  have differ {first second : String} (apart : first.toList.count '$' ≠ second.toList.count '$') :
      first ≠ second := fun same => apart (congrArg (·.toList.count '$') same)
  refine ⟨⟨?_, fun same => .inl (same ▸ rfl)⟩, ⟨?_, fun same => .inr (same ▸ rfl)⟩, ?_⟩
  · rintro (same | same)
    · exact (String.append_right_inj _).mp same
    · exact absurd same (differ (by rw [one, two]; omega))
  · rintro (same | same)
    · exact absurd same (differ (by rw [one, two]; omega))
    · exact (String.append_right_inj _).mp same
  · rintro (same | same)
    · exact absurd same (differ (by rw [one]; omega))
    · exact absurd same (differ (by rw [two]; omega))

/-- A name that fits becomes the variable that its test asks for. -/
theorem lowerBareName_of_fits (fits : Fits front) :
    ∃ symbol, lowerBareName front = (.symbol symbol, some (testedName front)) ∧
      StandsFor symbol (testedName front) := by
  obtain ⟨name, known, last, rfl | rfl⟩ := fits
  · rw [(testedName_eq_iff known).mpr last]
    obtain ⟨other, rfl, -⟩ | ⟨-, -, becomes⟩ | ⟨-, constant, -⟩ := lowerBareName_cases front
    · simp at last
    · exact ⟨_, becomes, .inl rfl⟩
    · cases constant.symm.trans known
  · rw [testedName_concat, (testedName_eq_iff known).mpr last]
    obtain ⟨other, same, -, becomes⟩ | ⟨noRest, -⟩ | ⟨noRest, -⟩ := lowerBareName_cases (name ++ "*")
    · cases (String.append_left_inj _).mp same
      exact ⟨_, becomes, .inr rfl⟩
    · exact absurd ⟨name, rfl, known⟩ noRest
    · exact absurd ⟨name, rfl, known⟩ noRest

/-- The test of a name asks for the variable that the name becomes if and only if the name fits. -/
theorem fits_iff (front : String) : Fits front ↔
    ∃ symbol, (lowerBareName front).1 = .symbol symbol ∧ StandsFor symbol (testedName front) := by
  have dollars {name : String} (known : isVariable name = true) :
      name.toList.count '$' = (testedName name).toList.count '$' := by
    rw [← count_dollar, upperString_of_isVariable known]
  constructor
  · intro fits
    obtain ⟨symbol, becomes, stands⟩ := lowerBareName_of_fits fits
    exact ⟨symbol, congrArg Prod.fst becomes, stands⟩
  rintro ⟨symbol, same, stands⟩
  obtain ⟨name, rfl, known, becomes⟩ | ⟨-, known, becomes⟩ | ⟨-, -, becomes⟩ := lowerBareName_cases front
  · rw [becomes] at same
    cases same
    rw [testedName_concat, (standsFor_iff (dollars known)).2.1] at stands
    exact ⟨name, known, (testedName_eq_iff known).mp stands.symm, .inr rfl⟩
  · rw [becomes] at same
    cases same
    rw [(standsFor_iff (dollars known)).1] at stands
    exact ⟨front, known, (testedName_eq_iff known).mp stands.symm, .inl rfl⟩
  · rw [becomes] at same
    have written : upperString front = symbol :=
      eq_of_symbol?_named (congrArg (fun value => (Tree.leaf value).symbol?) same)
    rw [← written] at stands
    exact absurd stands (standsFor_iff (count_dollar front)).2.2

/-- Each name with a type is in the pattern as what it becomes. -/
theorem exists_symbol_of_fits (member : front ∈ typedNames left) (fits : Fits front) :
    ∃ symbol ∈ (loweredPattern left).names, StandsFor symbol (testedName front) := by
  obtain ⟨symbol, becomes, stands⟩ := (fits_iff front).mp fits
  refine ⟨symbol, ?_, stands⟩
  obtain ⟨name, inside, typed⟩ := List.mem_filterMap.mp member
  induction left with
  | atom value pos =>
    cases value with
    | symbol written =>
      cases List.mem_singleton.mp inside
      rw [loweredPattern, bareName_of_typedName? typed, becomes]
      exact List.mem_singleton_self _
    | _ => cases inside
  | cons car cdr pos stepCar stepCdr =>
    rcases List.mem_append.mp inside with inCar | inCdr
    · exact List.mem_append_left _ (stepCar (List.mem_filterMap.mpr ⟨name, inCar, typed⟩) inCar)
    · exact List.mem_append_right _ (stepCdr (List.mem_filterMap.mpr ⟨name, inCdr, typed⟩) inCdr)

/-! ### The variables that a match binds -/

/-- A form on a left-hand side is a name that stands for the rest of a list. -/
def IsRestForm : SExpr → Prop
  | .atom (.symbol name) _ => IsRest (bareName name)
  | _ => False

/-- Names for the rest of a list stand last in their lists, and nowhere else. -/
def RestsLast : SExpr → Prop
  | .atom value pos => ¬ IsRestForm (.atom value pos)
  | .cons car cdr _ => (IsRestForm car ∧ cdr.names = []) ∨ (RestsLast car ∧ RestsLast cdr)

/-- What a name on a left-hand side becomes, as a pattern on its own. -/
theorem patternName?_bare (noRest : ¬ IsRest name) (lead : name.toList.head? ≠ some '$') :
    (Tree.leaf (lowerBareName name).1).patternName? = (lowerBareName name).2 := by
  obtain ⟨front, same, known, -⟩ | ⟨-, -, becomes⟩ | ⟨-, -, becomes⟩ := lowerBareName_cases name
  · exact absurd ⟨front, same, known⟩ noRest
  · rw [becomes]
    exact behind?_dollar name
  · rw [becomes]
    exact patternName?_named (head?_upperString_ne_dollar lead)

/-- What another name becomes starts no pattern for the rest of a list. -/
theorem behind?_bare (noRest : ¬ IsRest name) (lead : name.toList.head? ≠ some '$') {other : String}
    (symbol : (Tree.leaf (lowerBareName name).1).symbol? = some other) : behind? ['$', '$'] other = none := by
  obtain ⟨front, same, known, -⟩ | ⟨-, -, becomes⟩ | ⟨-, -, becomes⟩ := lowerBareName_cases name
  · exact absurd ⟨front, same, known⟩ noRest
  · rw [becomes] at symbol
    exact Option.some.inj symbol ▸ behind?_twoDollars lead
  · rw [becomes] at symbol
    exact eq_of_symbol?_named symbol ▸ behind?_of_head? (head?_upperString_ne_dollar lead) ['$']

/-- A pair that starts with something else than a name for the rest of a list is no variable. -/
theorem patternName?_pair_of_noRest {car : SExpr} {rest : Tree} (noRest : ¬ IsRestForm car)
    (leads : ∀ name ∈ car.names, (bareName name).toList.head? ≠ some '$') :
    (Tree.node (loweredPattern car).bare rest).patternName? = none := by
  unfold Tree.patternName?
  refine Option.bind_eq_none_iff.mpr fun other symbol => ?_
  cases car with
  | cons => cases symbol
  | atom value pos =>
    cases value with
    | symbol name => exact behind?_bare noRest (leads name List.mem_cons_self) symbol
    | _ => cases symbol

theorem behind?_twice (name : String) : behind? ['$', '$'] ("$$" ++ name) = some name := by
  simp [behind?, List.isPrefixOf]

/-- The variables of the pattern are those that lowering has found. -/
theorem names_loweredPattern (rests : RestsLast left)
    (leads : ∀ name ∈ left.names, (bareName name).toList.head? ≠ some '$') :
    (loweredPattern left).bare.names = boundNames left := by
  induction left with
  | atom value pos =>
    cases value with
    | symbol name =>
      have named := patternName?_bare rests (leads name List.mem_cons_self)
      rw [boundNames_symbol, loweredPattern, SExpr.bare]
      generalize lowerBareName (bareName name) = bare at named
      obtain ⟨value, found⟩ := bare
      cases found with
      | some bound => exact Tree.names_variable named
      | none => exact Tree.names_atom named rfl
    | _ => exact Tree.names_atom rfl rfl
  | cons car cdr pos stepCar stepCdr =>
    obtain ⟨leadsCar, leadsCdr⟩ := List.forall_mem_append.mp leads
    rw [boundNames_cons, loweredPattern, SExpr.bare]
    rcases rests with ⟨rest, last⟩ | ⟨restsCar, restsCdr⟩
    · -- The variable takes all that is left of the list, and nothing is left of the left-hand side.
      have nothing : boundNames cdr = [] := by rw [boundNames, last, List.filterMap_nil]
      cases car with
      | cons => exact rest.elim
      | atom value pos =>
        cases value with
        | symbol name =>
          obtain ⟨front, same, known, becomes⟩ | ⟨noRest, -⟩ | ⟨noRest, -⟩ :=
            lowerBareName_cases (bareName name)
          · rw [boundNames_symbol, loweredPattern, becomes, nothing]
            exact Tree.names_variable (behind?_twice front)
          · exact absurd rest noRest
          · exact absurd rest noRest
        | _ => exact rest.elim
    · have noRest : ¬ IsRestForm car := by
        cases car with
        | atom => exact restsCar
        | cons => exact id
      rw [Tree.names_node (patternName?_pair_of_noRest noRest leadsCar), stepCar restsCar leadsCar,
        stepCdr restsCdr leadsCdr]

end Source

/-! ### What a lowered condition asks for -/

namespace Heap

variable {heap : Heap} {code : Set NodeId} {id : NodeId} {tree : Tree}

theorem Shows.exists_elements (shows : heap.Shows code id tree) :
    ∃ ids, heap.elements? id = some ids ∧ List.Forall₂ (heap.Shows code) ids tree.elements := by
  obtain ⟨source, unfolds⟩ := shows.exists_unfolds
  obtain ⟨spine, walked, -⟩ := unfolds.carries.exists_spine
  have found : heap.elements? id = some (spine.pairs.map heap.carOf) := congrArg (Option.map _) walked
  exact ⟨_, found, shows.elements? found⟩

/-- The nodes that show trees are parts and code of each other only. -/
theorem contains_shown (heap : Heap) (code : Set NodeId) :
    heap.Contains {id | ∃ tree, heap.Shows code id tree} where
  closed := by
    rintro id ⟨tree, shows⟩
    cases shows with
    | @leaf _ value old atom plain =>
      rw [atom]
      cases value with
      | closure function => exact absurd rfl (plain function)
      | _ => trivial
    | function old atom inCode params body =>
      rw [atom]
      exact ⟨⟨_, params⟩, ⟨_, body⟩⟩
    | node pair front back =>
      rw [pair]
      exact ⟨⟨_, front⟩, ⟨_, back⟩⟩
  present id shown := shown.elim fun _ shows => shows.lt_size

theorem testedFrom_numberTest {name : String} (shows : heap.Shows code id (numberTest name).bare)
    (fuel : Nat) : heap.testedFrom (fuel + 1) id = some [name] := by
  cases shows with
  | node pair front back =>
    obtain ⟨ids, walked, each⟩ := back.exists_elements
    cases each with
    | @cons term _ rest _ first none =>
      cases none
      exact testedFrom_succ_eq_some.mpr (.number pair front.symbol? walked first.symbol?)

theorem elements_bare_list (items : List SExpr) :
    (SExpr.list items).bare.elements = items.map SExpr.bare := by
  induction items with
  | nil => rfl
  | cons item items step => exact congrArg (List.cons item.bare) step

theorem mapM_testedFrom {forms : List NodeId} {names : List String} {fuel : Nat}
    (shows : List.Forall₂ (heap.Shows code) forms ((names.map numberTest).map SExpr.bare)) :
    forms.mapM (heap.testedFrom (fuel + 1)) = some (names.map fun name => [name]) := by
  induction names generalizing forms with
  | nil =>
    cases shows
    rfl
  | cons name names step =>
    cases shows with
    | cons first others =>
      rw [List.mapM_cons, testedFrom_numberTest first, step others]
      rfl

/-- A lowered condition asks for the names that it is made of. -/
theorem testedFrom_condition {names : List String} (shows : heap.Shows code id (condition names).bare) :
    heap.testedFrom 2 id = some names := by
  match names with
  | [] =>
    cases shows with
    | leaf old atom plain => exact testedFrom_succ_eq_some.mpr (.truth atom)
  | [name] => exact testedFrom_numberTest shows 1
  | first :: second :: names =>
    have listed : (condition (first :: second :: names)).bare = .node (.leaf (.symbol "AND"))
        (SExpr.list ((first :: second :: names).map numberTest)).bare := rfl
    rw [listed] at shows
    cases shows with
    | node pair front back =>
      obtain ⟨forms, walked, each⟩ := back.exists_elements
      rw [elements_bare_list] at each
      have asked : forms.mapM (heap.testedFrom 1) = _ := mapM_testedFrom each
      have asks := Asks.conjunction pair front.symbol? walked asked
      rw [← List.flatMap_def, List.flatMap_singleton'] at asks
      exact testedFrom_succ_eq_some.mpr asks

theorem nodup_of_matchFrom {fuel : Nat} {pattern term : NodeId} {bindings after : Bindings}
    (nodup : bindings.names.Nodup)
    (matched : heap.matchFrom fuel pattern term bindings = some (some after)) : after.names.Nodup := by
  induction fuel generalizing pattern term bindings after with
  | zero => cases matched
  | succ fuel step =>
    cases matchFrom_succ_eq_some.mp matched with
    | binds _ bound =>
      rcases bind_eq_some_some.mp bound with ⟨-, rfl⟩ | ⟨_, -, -, rfl⟩
      · exact Table.nodup_insert bindings _ term nodup
      · exact nodup
    | pairs _ _ _ first rest => exact step (step nodup first) rest
    | equal => exact nodup

end Heap

namespace Source

/-- After a match a condition asks for what the match has bound only, whatever the names mean outside, and
does not fail for an unknown one. -/
def ReadsBound (pattern : SExpr) (tests : List String) : Prop :=
  ∀ (interp : Interpreter) (heap : Heap) (code : Set NodeId) (node guard term : NodeId) (tree : Tree)
    (bindings : Bindings), heap.Shows code node pattern.bare → heap.Shows code guard (condition tests).bare →
    heap.Shows code term tree → heap.match? node term = some (some bindings) → interp.Printable heap →
    (∀ name ∈ tests, ∃ value, bindings.find? name = some value ∧
      (interp.env.pushWith bindings.entries).lookup name = some value) ∧
    ∀ rounds levels, Halts (fun error => ∀ name, error ≠ .unboundVariable name) .univ
      (serve rounds levels (.value guard)) (interp.mapEnv (·.pushWith bindings.entries)) heap fun _ _ => True

theorem readsBound_of_names {pattern : SExpr} {tests : List String}
    (covered : ∀ name ∈ tests, name ∈ pattern.bare.names) : ReadsBound pattern tests := by
  intro interp heap code node guard term tree bindings shows guards shown matched printable
  have unbound : (Table.empty : Bindings).names.Nodup := List.nodup_nil
  have nodup := Heap.nodup_of_matchFrom unbound matched
  have found (name : String) (asked : name ∈ tests) : ∃ value, bindings.find? name = some value ∧
      (interp.env.pushWith bindings.entries).lookup name = some value := by
    have bound := shows.isSome_of_matchFrom matched name (covered name asked)
    obtain ⟨value, known⟩ := Option.isSome_iff_exists.mp bound
    exact ⟨value, known, Environment.lookup_pushWith_of_find? nodup known⟩
  refine ⟨found, fun rounds levels => ?_⟩
  refine halts_condition ⟨?_, ?_⟩ ?_ (printable.pushWith (shown.shown_of_match? matched))
    (heap.contains_shown code) ⟨_, guards⟩ (Heap.testedFrom_condition guards) ?_
  · rintro _ ⟨rfl, -⟩ name
    exact nofun
  · intro error note other _ name
    cases error with
    | unboundVariable unknown => exact absurd rfl (other unknown)
    | _ => exact nofun
  · intro error deep name same
    rw [same] at deep
    exact deep
  · intro name asked unknown
    obtain ⟨value, -, looked⟩ := found name asked
    cases unknown.symm.trans looked

/-! ### The tests of accepted rules -/

/-- A left-hand side in which the names with a type fit, no name begins with a dollar, and names for the rest
of a list stand last in their lists. -/
structure Orderly (left : SExpr) : Prop where
  fits : ∀ front ∈ typedNames left, Fits front
  leads : ∀ name ∈ left.names, (bareName name).toList.head? ≠ some '$'
  rests : RestsLast left

/-- In an orderly left-hand side the variables that are asked for are variables of the pattern. -/
theorem Orderly.covered {left : SExpr} (orderly : Orderly left) :
    ∀ name ∈ testedNames left, name ∈ (loweredPattern left).bare.names := by
  intro name asked
  obtain ⟨front, typed, rfl⟩ := List.mem_map.mp asked
  obtain ⟨symbol, becomes, -⟩ := lowerBareName_of_fits (orderly.fits front typed)
  obtain ⟨written, inside, known⟩ := List.mem_filterMap.mp typed
  rw [names_loweredPattern orderly.rests orderly.leads]
  refine List.mem_filterMap.mpr ⟨written, inside, ?_⟩
  rw [bareName_of_typedName? known, becomes]

/-- What the tests of an accepted rule ask for. -/
structure TestsBound (left : SExpr) : Prop where
  own : ∀ front ∈ typedNames left, Fits front ↔
    ∃ symbol, (lowerBareName front).1 = .symbol symbol ∧ StandsFor symbol (testedName front)
  occurs : (∀ front ∈ typedNames left, Fits front) → ∀ name ∈ testedNames left,
    ∃ symbol ∈ (loweredPattern left).names, StandsFor symbol name
  reads : Orderly left → ReadsBound (loweredPattern left) (testedNames left)

/-- **The condition of an accepted rule asks, for each name with a type, for the name without its stars, and
the name becomes a variable of that name in the pattern if and only if it fits.** If all of them fit, each
test asks for a variable that occurs in the pattern. If moreover the left-hand side is orderly, the condition
reads nothing but what a match has bound, and never fails for an unknown variable. -/
theorem testsBound_of_accepted {items : List SExpr} {form : SExpr} (accepted : lowerForm items = .ok form) :
    ∃ head input rest rules, items = head :: input :: rest ∧
      form = .list [.atom (.symbol "REWRITE") head.pos, foldNames input,
        .unaryCall "QUOTE" (.list rules.flatten)] ∧
      List.Forall₂ (fun side rule => ∃ template,
        rule = [.unaryCall "BACKQUOTE" (loweredPattern side.1), condition (testedNames side.1),
          .unaryCall "BACKQUOTE" template] ∧ TestsBound side.1) (sides rest) rules := by
  obtain ⟨head, input, rest, rules, whole, each, rfl⟩ := lowerForm_ok accepted
  refine ⟨head, input, rest, rules, whole, rfl, each.imp fun side rule lowered => ?_⟩
  obtain ⟨template, -, same⟩ := lowerRule_ok lowered
  refine ⟨template, same, ⟨fun front _ => fits_iff front, fun fits name asked => ?_, fun orderly =>
    readsBound_of_names orderly.covered⟩⟩
  obtain ⟨front, typed, rfl⟩ := List.mem_map.mp asked
  exact exists_symbol_of_fits typed (fits front typed)

theorem not_isRest (last : name.toList.getLast? ≠ some '*') : ¬ IsRest name := by
  rintro ⟨front, rfl, -⟩
  simp at last

/-- The rule `(f X:number Y) -> done` asks for `X`, which a match binds. -/
theorem testsBound_of_accepted_number :
    ∃ template, lowerForm [.symbol "TRS", .list [.symbol "f", .atom (.int 1) none],
        .list [.symbol "f", .symbol "X:number", .symbol "Y"], .symbol "->", .symbol "done"] =
      .ok (.list [.symbol "REWRITE", .list [.symbol "F", .atom (.int 1) none], .unaryCall "QUOTE"
        (.list [.unaryCall "BACKQUOTE" (.list [.symbol "F", .symbol "$X", .symbol "$Y"]), numberTest "X",
          .unaryCall "BACKQUOTE" template])]) ∧
      ReadsBound (.list [.symbol "F", .symbol "$X", .symbol "$Y"]) ["X"] := by
  obtain ⟨form, accepted⟩ : ∃ form, lowerForm [.symbol "TRS", .list [.symbol "f", .atom (.int 1) none],
      .list [.symbol "f", .symbol "X:number", .symbol "Y"], .symbol "->", .symbol "done"] = .ok form :=
    ⟨_, rfl⟩
  obtain ⟨head, input, rest, rules, whole, rfl, each⟩ := testsBound_of_accepted accepted
  cases whole
  cases each with
  | cons first others =>
    cases others
    obtain ⟨template, rfl, tests⟩ := first
    refine ⟨template, accepted, tests.reads ⟨?_, ?_, ?_⟩⟩
    · exact List.forall_mem_singleton.mpr ⟨"X", by decide, by decide, .inl rfl⟩
    · show ∀ name ∈ ["f", "X:number", "Y"], (bareName name).toList.head? ≠ some '$'
      decide
    · have plain (name : String) (last : (bareName name).toList.getLast? ≠ some '*') (pos : Option Pos) :
          RestsLast (.atom (.symbol name) pos) := not_isRest last
      exact .inr ⟨plain "f" (by decide) _, .inr ⟨plain "X:number" (by decide) _,
        .inr ⟨plain "Y" (by decide) _, id⟩⟩⟩

/-- The rule `(f X**:number) -> done` asks for `X`, which is no variable of its pattern `(F $$X*)`. -/
theorem not_testsBound : ¬ ∀ (items : List SExpr) (form head input : SExpr) (rules : List SExpr),
    lowerForm items = .ok form → form = .list [head, input, .unaryCall "QUOTE" (.list rules)] →
    ∀ (before after : List SExpr) (pattern template : SExpr) (tests : List String),
      rules = before ++ [.unaryCall "BACKQUOTE" pattern, condition tests, .unaryCall "BACKQUOTE" template] ++
        after → before.length % 3 = 0 →
      ∀ name ∈ tests, ∃ symbol ∈ pattern.names, StandsFor symbol name := by
  intro claim
  obtain ⟨symbol, occurs, stands⟩ := claim
    [.symbol "TRS", .list [.symbol "f", .atom (.int 1) none], .list [.symbol "f", .symbol "X**:number"],
      .symbol "->", .symbol "done"] _ _ _ _ rfl rfl [] [] (.list [.symbol "F", .symbol "$$X*"])
    (.symbol "DONE") ["X"] rfl rfl "X" List.mem_cons_self
  have listed : symbol ∈ ["F", "$$X*"] := occurs
  simp only [List.mem_cons, List.not_mem_nil, or_false] at listed
  rcases listed with rfl | rfl <;> rcases stands with same | same <;> exact absurd same (by decide)

end Source

end TermLisp
