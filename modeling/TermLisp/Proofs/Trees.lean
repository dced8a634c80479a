/-
**Rewriting as a recursion on trees.**

On trees that do not change, rewriting is a recursion: the normal form of an atom is what a step makes
of it, the normal form of a pair what a step makes of the pair of the normal forms of its parts. A step
tries the rules once in order, each that fires replacing the tree; if any did, the normal form of the
replacement is taken, and otherwise the tree itself. The recursion may not end, so it is a relation.

* `Tree.match?`, `Tree.fill`, `Tree.splice?`: matching, templates and splicing on trees;
* `Norm`: the recursion;
* `Norm.unique`: a tree has one normal form at most;
* `Norm.normal`, `Normal.norm`: what the recursion gives is normal, and it leaves normal trees alone;
* `Refines`: a tree in place of another one whose normal form it has.
-/

import TermLisp.Pattern

namespace TermLisp

/-- A tree in which nothing is shared. A function stands in it with its code. -/
inductive Tree where
  | leaf (value : Atom)
  | function (name : String) (params body : Tree)
  | node (car cdr : Tree)

namespace Tree

/-- Whether a tree is a pair. -/
def isNode : Tree → Bool
  | node _ _ => true
  | _ => false

theorem exists_node {tree : Tree} (pair : tree.isNode ≠ false) :
    ∃ car cdr, tree = node car cdr := by
  cases tree with
  | leaf | function => exact absurd rfl pair
  | node car cdr => exact ⟨car, cdr, rfl⟩

/-- The name of a symbol. -/
def symbol? : Tree → Option String
  | leaf (.symbol name) => some name
  | _ => none

/-- Whether two trees are equal: floats within the tolerance, functions by name and code. -/
def same : Tree → Tree → Bool
  | leaf first, leaf second => first.sameAs second
  | function first params body, function second otherParams otherBody =>
    first == second && params.same otherParams && body.same otherBody
  | node car cdr, node otherCar otherCdr => car.same otherCar && cdr.same otherCdr
  | _, _ => false

/-- All atoms of a tree are equal to themselves. A float that is not finite is not. -/
def Steady : Tree → Prop
  | leaf value => value.sameAs value = true
  | function _ params body => params.Steady ∧ body.Steady
  | node car cdr => car.Steady ∧ cdr.Steady

theorem Steady.same {tree : Tree} (steady : tree.Steady) : tree.same tree = true := by
  induction tree with
  | leaf value => exact steady
  | function name params body stepParams stepBody =>
    simp [Tree.same, stepParams steady.1, stepBody steady.2]
  | node car cdr stepCar stepCdr => simp [Tree.same, stepCar steady.1, stepCdr steady.2]

theorem same_mixed {left right : Tree} (differ : left.isNode ≠ right.isNode) :
    left.same right = false := by
  cases left <;> cases right <;> first | rfl | exact absurd rfl differ

/-! ### Matching -/

/-- The variable that a pattern is as a whole: a symbol `$X` or a pair that starts with `$$X`. -/
def patternName? : Tree → Option String
  | leaf (.symbol name) => behind? ['$'] name
  | node car _ => car.symbol?.bind (behind? ['$', '$'])
  | _ => none

/-- The names of the variables of a pattern. -/
def names (pattern : Tree) : List String :=
  match pattern.patternName? with
  | some name => [name]
  | none =>
    match pattern with
    | node car cdr => car.names ++ cdr.names
    | _ => []

theorem names_variable {pattern : Tree} {name : String}
    (named : pattern.patternName? = some name) : pattern.names = [name] := by
  rw [names.eq_def, named]

theorem names_node {car cdr : Tree} (named : (node car cdr).patternName? = none) :
    (node car cdr).names = car.names ++ cdr.names := by
  rw [names, named]

theorem names_atom {pattern : Tree} (named : pattern.patternName? = none)
    (whole : pattern.isNode = false) : pattern.names = [] := by
  rw [names.eq_def, named]
  cases pattern <;> first | rfl | cases whole

/-- Gives a value to a variable. One that has a value keeps it, and the new one has to be equal. -/
def bind (bindings : Table Tree) (name : String) (term : Tree) : Option (Table Tree) :=
  match bindings.find? name with
  | none => some (bindings.insert name term)
  | some bound => if bound.same term then some bindings else none

/-- The bindings under which a pattern is a term, added to given ones. -/
def matchFrom? (pattern term : Tree) (bindings : Table Tree) : Option (Table Tree) :=
  match pattern.patternName? with
  | some name => bind bindings name term
  | none =>
    match pattern, term with
    | node patternCar patternCdr, node termCar termCdr =>
      (patternCar.matchFrom? termCar bindings).bind (patternCdr.matchFrom? termCdr)
    | node _ _, _ => none
    | _, node _ _ => none
    | _, _ => if pattern.same term then some bindings else none

/-- The bindings under which a pattern is a term, if there are any. -/
def match? (pattern term : Tree) : Option (Table Tree) := pattern.matchFrom? term .empty

section Match

variable {pattern term : Tree} {bindings : Table Tree}

theorem matchFrom?_variable {name : String} (named : pattern.patternName? = some name) :
    pattern.matchFrom? term bindings = bind bindings name term := by
  unfold matchFrom?
  rw [named]

/-- A pattern that is no pair and no variable is compared. -/
theorem matchFrom?_atom (named : pattern.patternName? = none) (whole : pattern.isNode = false) :
    pattern.matchFrom? term bindings = if pattern.same term then some bindings else none := by
  unfold matchFrom?
  rw [named]
  cases pattern with
  | node car cdr => cases whole
  | leaf atom => cases term <;> rfl
  | function => cases term <;> rfl

theorem matchFrom?_nodes {patternCar patternCdr termCar termCdr : Tree}
    (named : (node patternCar patternCdr).patternName? = none) :
    (node patternCar patternCdr).matchFrom? (node termCar termCdr) bindings =
      (patternCar.matchFrom? termCar bindings).bind (patternCdr.matchFrom? termCdr) := by
  rw [matchFrom?, named]

/-- A pair is no atom. -/
theorem matchFrom?_mixed (named : pattern.patternName? = none)
    (differs : pattern.isNode ≠ term.isNode) : pattern.matchFrom? term bindings = none := by
  unfold matchFrom?
  rw [named]
  cases pattern <;> cases term <;> first | rfl | exact absurd rfl differs

end Match

/-- Whether a tree is a number. -/
def isNumber : Tree → Bool
  | leaf value => value.number?.isSome
  | _ => false

/-! ### Templates -/

/-- A backquoted template as an expression. -/
def backquote (template : Tree) : Tree :=
  node (leaf (.symbol "BACKQUOTE")) (node template (leaf .nil))

/-- The name that a list starts with. -/
def headName? : Tree → Option String
  | node car _ => car.symbol?
  | _ => none

/-- The forms behind a comma are variables with given names. -/
def CommasAmong (names : List String) : Tree → Prop
  | node car cdr =>
    if car.symbol? = some "COMMA" then ∃ name ∈ names, cdr.headName? = some name
    else car.CommasAmong names ∧ cdr.CommasAmong names
  | _ => True

/-- A template with the values of variables in place of its comma forms. -/
def fill (bindings : Table Tree) : Tree → Option Tree
  | node car cdr =>
    if car.symbol? = some "COMMA" then cdr.headName?.bind bindings.find?
    else (car.fill bindings).bind fun first => (cdr.fill bindings).map (node first)
  | tree => some tree

theorem CommasAmong.of_comma {names : List String} {car cdr : Tree}
    (commas : (node car cdr).CommasAmong names) (comma : car.symbol? = some "COMMA") :
    ∃ name, cdr.headName? = some name ∧ name ∈ names := by
  unfold CommasAmong at commas
  rw [if_pos comma] at commas
  obtain ⟨name, member, named⟩ := commas
  exact ⟨name, named, member⟩

theorem CommasAmong.of_plain {names : List String} {car cdr : Tree}
    (commas : (node car cdr).CommasAmong names) (plain : car.symbol? ≠ some "COMMA") :
    car.CommasAmong names ∧ cdr.CommasAmong names := by
  unfold CommasAmong at commas
  rw [if_neg plain] at commas
  exact commas

theorem fill_comma {bindings : Table Tree} {car cdr : Tree} {name : String}
    (comma : car.symbol? = some "COMMA") (named : cdr.headName? = some name) :
    (node car cdr).fill bindings = bindings.find? name := by
  rw [fill, if_pos comma, named]
  rfl

theorem fill_node {bindings : Table Tree} {car cdr : Tree} (plain : car.symbol? ≠ some "COMMA") :
    (node car cdr).fill bindings =
      (car.fill bindings).bind fun first => (cdr.fill bindings).map (node first) := by
  rw [fill, if_neg plain]

theorem fill_atom (bindings : Table Tree) {tree : Tree} (whole : tree.isNode = false) :
    tree.fill bindings = some tree := by
  cases tree with
  | leaf | function => rfl
  | node car cdr => cases whole

/-! ### Splicing -/

/-- The list in a marker `(~ list)`. -/
def marker? : Tree → Option Tree
  | node head (node list (leaf .nil)) => if head.symbol? = some "~" then some list else none
  | _ => none

theorem marker?_nil (head list : Tree) : (node head (node list (leaf .nil))).marker? =
    if head.symbol? = some "~" then some list else none := rfl

theorem marker?_of_ne_nil {head list tail : Tree} (more : tail ≠ leaf .nil) :
    (node head (node list tail)).marker? = none := by
  unfold marker?
  split
  · next same =>
    cases same
    exact absurd rfl more
  · rfl

/-- Whether a tree is a pair or `NIL`. -/
def isList : Tree → Bool
  | node _ _ => true
  | leaf .nil => true
  | _ => false

/-- What ends a list. -/
def stop : Tree → Tree
  | node _ cdr => cdr.stop
  | tree => tree

/-- The elements of a list, whatever ends it. -/
def elements : Tree → List Tree
  | node car cdr => car :: cdr.elements
  | _ => []

theorem elements_atom {tree : Tree} (whole : tree.isNode = false) : tree.elements = [] := by
  cases tree with
  | leaf | function => rfl
  | node car cdr => cases whole

theorem stop_atom {tree : Tree} (whole : tree.isNode = false) : tree.stop = tree := by
  cases tree with
  | leaf | function => rfl
  | node car cdr => cases whole

theorem isNode_stop (tree : Tree) : tree.stop.isNode = false := by
  induction tree with
  | leaf | function => rfl
  | node car cdr _ step => exact step

/-- Items in front of a tail. -/
def listWithTail (items : List Tree) (tail : Tree) : Tree := items.foldr node tail

theorem listWithTail_elements (tree : Tree) : listWithTail tree.elements tree.stop = tree := by
  induction tree with
  | leaf | function => rfl
  | node car cdr _ step => exact congrArg (node car) step

theorem elements_listWithTail (items : List Tree) {tail : Tree} (whole : tail.isNode = false) :
    (listWithTail items tail).elements = items := by
  induction items with
  | nil => exact elements_atom whole
  | cons item rest step => exact congrArg (item :: ·) step

/-- The number of nodes of a tree, the code of functions aside. -/
def size : Tree → Nat
  | node car cdr => car.size + cdr.size + 1
  | _ => 1

theorem size_marker? {tree list : Tree} (found : tree.marker? = some list) : list.size < tree.size := by
  unfold marker? at found
  split at found
  · split at found
    · cases found
      simp only [size]
      omega
    · cases found
  · cases found

theorem size_listWithTail_elements (tree : Tree) :
    (listWithTail tree.elements (leaf .nil)).size = tree.size := by
  induction tree with
  | leaf value => rfl
  | function name params body => rfl
  | node car cdr _ step =>
    simp only [listWithTail, elements, List.foldr_cons, size] at step ⊢
    rw [step]

/-- The tree that is left when markers that stand alone are replaced by their lists, which end in `NIL`
from then on. -/
def unwrap (tree : Tree) : Option Tree :=
  match _found : tree.marker? with
  | none => some tree
  | some list => if list.isList then (listWithTail list.elements (leaf .nil)).unwrap else none
termination_by tree.size
decreasing_by
  rw [size_listWithTail_elements]
  exact size_marker? ‹_›

mutual

/-- The elements that an element contributes to its list: those of the list in a marker, a spliced
pair, or the atom itself. -/
def expand (element : Tree) : Option (List Tree) :=
  match _found : element.marker? with
  | some list => if list.isList then list.spliceElements else none
  | none =>
    if element.isNode then
      element.spliceElements.map fun items => [listWithTail items element.stop]
    else some [element]
termination_by (element.size, 1)
decreasing_by
  · exact .left _ _ (size_marker? ‹_›)
  · exact .right _ Nat.zero_lt_one

/-- What the elements of a list contribute to it. -/
def spliceElements : Tree → Option (List Tree)
  | node car cdr => car.expand.bind fun items => cdr.spliceElements.map (items ++ ·)
  | _ => some []
termination_by tree => (tree.size, 0)
decreasing_by
  all_goals
    refine .left _ _ ?_
    simp only [size]
    omega

end

/-- What several elements contribute to their list. -/
def expandAll : List Tree → Option (List Tree)
  | [] => some []
  | element :: elements => element.expand.bind fun items => (expandAll elements).map (items ++ ·)

theorem spliceElements_eq (tree : Tree) : tree.spliceElements = expandAll tree.elements := by
  induction tree with
  | leaf | function => rw [spliceElements.eq_def]; rfl
  | node car cdr _ step =>
    rw [spliceElements, step]
    rfl

theorem unwrap_of_marker?_eq_none {tree : Tree} (found : tree.marker? = none) :
    tree.unwrap = some tree := by
  rw [unwrap]
  split
  · rfl
  · next list known => cases found.symm.trans known

theorem unwrap_of_marker?_eq_some {tree list : Tree} (found : tree.marker? = some list) :
    tree.unwrap =
      if list.isList then (listWithTail list.elements (leaf .nil)).unwrap else none := by
  rw [unwrap]
  split
  · next known => cases found.symm.trans known
  · next other known =>
    cases found.symm.trans known
    rfl

theorem expand_of_marker?_eq_some {element list : Tree} (found : element.marker? = some list) :
    element.expand = if list.isList then expandAll list.elements else none := by
  rw [expand]
  split
  · next other known =>
    cases found.symm.trans known
    rw [spliceElements_eq]
  · next known => cases found.symm.trans known

/-- A tree with the elements in markers in place of the markers. -/
def splice? (tree : Tree) : Option Tree :=
  tree.unwrap.bind fun tree => tree.spliceElements.map (listWithTail · tree.stop)

theorem splice?_atom {tree : Tree} (whole : tree.isNode = false) (found : tree.marker? = none) :
    tree.splice? = some tree := by
  rw [splice?, unwrap_of_marker?_eq_none found, Option.bind_some, spliceElements_eq,
    elements_atom whole, stop_atom whole]
  rfl

/-- An element that is no marker contributes what it is when it is spliced alone. -/
theorem expand_of_marker?_eq_none {element : Tree} (found : element.marker? = none) :
    element.expand = element.splice?.map fun spliced => [spliced] := by
  rw [expand]
  split
  · next list known => cases found.symm.trans known
  · by_cases pair : element.isNode = true
    · rw [if_pos pair, splice?, unwrap_of_marker?_eq_none found, Option.bind_some, Option.map_map]
      rfl
    · rw [if_neg pair, splice?_atom (eq_false_of_ne_true pair) found]
      rfl

end Tree

/-! ### The recursion -/

/-- A rewrite rule on trees: a pattern, the variables that have to be numbers, and a template. -/
structure TreeRule where
  pattern : Tree
  tested : List String
  template : Tree

/-- A rule speaks of the variables of its pattern only. -/
structure TreeRule.Bound (rule : TreeRule) : Prop where
  tested : ∀ name ∈ rule.tested, name ∈ rule.pattern.names
  commas : rule.template.CommasAmong rule.pattern.names

/-- What a rule makes of a tree, if it fires. There is no outcome where what it makes cannot be
spliced. -/
def TreeRule.fire? (rule : TreeRule) (tree : Tree) : Option (Option Tree) :=
  match rule.pattern.match? tree with
  | none => some none
  | some bindings =>
    if rule.tested.all fun name => (bindings.find? name).any Tree.isNumber then
      ((rule.template.fill bindings).bind Tree.splice?).map some
    else some none

namespace Tree

/-- What the rules make of a tree, each tried once on what those before it have made of it. -/
def pass? : List TreeRule → Tree → Option (Option Tree)
  | [], _ => some none
  | rule :: rules, tree =>
    match rule.fire? tree with
    | none => none
    | some none => pass? rules tree
    | some (some replaced) => (pass? rules replaced).map fun later => some (later.getD replaced)

/-- The normal form of a tree. The parts of a tree may be known to be normal already; then it is what
a step makes of the tree. -/
inductive Norm (rules : List TreeRule) : (partsDone : Bool) → Tree → Tree → Prop
  | atom {tree normal : Tree} (whole : tree.isNode = false) (step : Norm rules true tree normal) :
    Norm rules false tree normal
  | pair {car cdr first rest normal : Tree} (front : Norm rules false car first)
      (back : Norm rules false cdr rest) (step : Norm rules true (node first rest) normal) :
    Norm rules false (node car cdr) normal
  | stop {tree : Tree} (rests : pass? rules tree = some none) : Norm rules true tree tree
  | again {tree replaced normal : Tree} (fires : pass? rules tree = some (some replaced))
      (further : Norm rules false replaced normal) : Norm rules true tree normal

/-- No rule fires on a tree nor on any part of it. -/
inductive Normal (rules : List TreeRule) : Tree → Prop
  | atom {tree : Tree} (whole : tree.isNode = false) (rests : pass? rules tree = some none) :
    Normal rules tree
  | pair {car cdr : Tree} (front : Normal rules car) (back : Normal rules cdr)
      (rests : pass? rules (node car cdr) = some none) : Normal rules (node car cdr)

variable {rules : List TreeRule} {partsDone : Bool} {tree result other : Tree}

/-- A tree has one normal form at most. -/
theorem Norm.unique (first : Norm rules partsDone tree result)
    (second : Norm rules partsDone tree other) : result = other := by
  induction first generalizing other with
  | atom whole _ known =>
    cases second with
    | atom _ step => exact known step
    | pair => cases whole
  | pair _ _ _ knownFront knownBack known =>
    cases second with
    | atom whole => cases whole
    | pair front back step =>
      cases knownFront front
      cases knownBack back
      exact known step
  | stop rests =>
    cases second with
    | stop => rfl
    | again fires => cases rests.symm.trans fires
  | again fires _ known =>
    cases second with
    | stop rests => cases rests.symm.trans fires
    | again firesToo further =>
      cases fires.symm.trans firesToo
      exact known further

/-- The recursion leaves a normal tree alone. -/
theorem Normal.norm (normal : Normal rules tree) : Norm rules false tree tree := by
  induction normal with
  | atom whole rests => exact .atom whole (.stop rests)
  | pair _ _ rests front back => exact .pair front back (.stop rests)

/-- The parts of a tree are normal. -/
def PartsNormal (rules : List TreeRule) : Tree → Prop
  | node car cdr => Normal rules car ∧ Normal rules cdr
  | _ => True

theorem PartsNormal.of_atom (whole : tree.isNode = false) : PartsNormal rules tree := by
  cases tree with
  | leaf | function => trivial
  | node car cdr => cases whole

theorem PartsNormal.normal (parts : PartsNormal rules tree) (rests : pass? rules tree = some none) :
    Normal rules tree := by
  cases tree with
  | leaf value => exact .atom rfl rests
  | function name params body => exact .atom rfl rests
  | node car cdr => exact .pair parts.1 parts.2 rests

/-- Of a tree with normal parts the normal form is what a step makes. -/
theorem PartsNormal.norm (parts : PartsNormal rules tree) (step : Norm rules true tree result) :
    Norm rules false tree result := by
  cases tree with
  | leaf value => exact .atom rfl step
  | function name params body => exact .atom rfl step
  | node car cdr => exact .pair parts.1.norm parts.2.norm step

/-- What the recursion gives is normal. -/
theorem Norm.normal (norm : Norm rules partsDone tree result)
    (parts : partsDone = true → PartsNormal rules tree) : Normal rules result := by
  induction norm with
  | atom whole _ known => exact known fun _ => .of_atom whole
  | pair _ _ _ knownFront knownBack known =>
    exact known fun _ => ⟨knownFront nofun, knownBack nofun⟩
  | stop rests => exact (parts rfl).normal rests
  | again _ _ known => exact known nofun

/-! ### Trees in place of others -/

/-- A tree may stand in place of another one: its normal form is the normal form of the other one, of
which nothing is left to do if it is normal. -/
structure Refines (rules : List TreeRule) (before after : Tree) : Prop where
  norm : ∀ normal, Norm rules false after normal → Norm rules false before normal
  normal : Normal rules before → after = before

theorem Refines.refl (rules : List TreeRule) (tree : Tree) : Refines rules tree tree :=
  ⟨fun _ norm => norm, fun _ => rfl⟩

theorem Refines.trans {before middle after : Tree} (first : Refines rules before middle)
    (second : Refines rules middle after) : Refines rules before after where
  norm normal norm := first.norm normal (second.norm normal norm)
  normal normal := by
    have same := first.normal normal
    exact (second.normal (same ▸ normal)).trans same

theorem Refines.node {car cdr first rest : Tree} (front : Refines rules car first)
    (back : Refines rules cdr rest) : Refines rules (node car cdr) (node first rest) where
  norm normal norm := by
    cases norm with
    | atom whole => cases whole
    | pair known knownRest step => exact .pair (front.norm _ known) (back.norm _ knownRest) step
  normal normal := by
    cases normal with
    | atom whole => cases whole
    | pair known knownRest rests => rw [front.normal known, back.normal knownRest]

/-- The normal form of a tree may stand in its place. -/
theorem Norm.refines (norm : Norm rules false tree result) : Refines rules tree result where
  norm other again := by
    cases again.unique (norm.normal nofun).norm
    exact norm
  normal already := norm.unique already.norm

end Tree

end TermLisp
