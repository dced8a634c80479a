/-
**A form on both sides of a rule.**

A rule with the same form on both sides should give back every term that it matches. The two sides are
read differently, though: on the left a name is a variable as it is written, and on the right it is one as
soon as it is folded to the capitals of a variable. So a name in other letters is a constant on the left
and may be a variable on the right. What comes out is the form with all such names taken for variables; it
is the term again if and only if each of these variables has met its own symbol.

* `plain_capitalized`: the names of a form that is read in capitals are plain;
* `meaning_capitalized_iff`: when the two readings of a form mean the same;
* `restores_iff`: when a form on both sides gives back a term;
* `not_restores`: a form with `X` and `x`.
-/

import TermLisp.Proofs.Lowering

namespace TermLisp

open Source Text Machine Evaluator

variable {side : SExpr} {names : List String} {name : String} {values : String → Tree}

/-! ### Forms read in capitals -/

namespace SExpr

theorem mem_variableNames : name ∈ side.variableNames ↔ name ∈ side.names ∧ isVariable name = true :=
  List.mem_filter

/-- The names of a form read in capitals are names of the form, and variables. -/
theorem mem_names_capitalized (member : name ∈ (side.capitalized names).names) :
    name ∈ side.names ∨ name ∈ names := by
  induction side with
  | atom value pos =>
    cases value with
    | symbol written =>
      simp only [capitalized, SExpr.names, List.mem_singleton] at member ⊢
      split at member
      · next known => exact .inr (member ▸ known)
      · exact .inl member
    | _ => exact .inl member
  | cons car cdr pos stepCar stepCdr =>
    rcases List.mem_append.mp member with front | back
    · exact (stepCar front).imp_left (List.mem_append_left _)
    · exact (stepCdr back).imp_left (List.mem_append_right _)

theorem mem_variableNames_capitalized (member : name ∈ (side.capitalized side.variableNames).variableNames) :
    name ∈ side.variableNames := by
  obtain ⟨inside, known⟩ := mem_variableNames.mp member
  exact (mem_names_capitalized inside).elim (fun here => mem_variableNames.mpr ⟨here, known⟩) id

/-- The names of a form that is read in capitals are plain. -/
theorem plain_capitalized (plain : ∀ name ∈ side.names, PlainName name) :
    ∀ name ∈ (side.capitalized side.variableNames).names, PlainName name := by
  intro name member
  rcases mem_names_capitalized member with here | taken
  · exact plain name here
  · exact plain name (mem_variableNames.mp taken).1

/-- The two readings of a form mean the same if and only if no other name is taken for a variable with
another value. -/
theorem meaning_capitalized_iff (known : ∀ name ∈ names, isVariable name = true) :
    (side.capitalized names).meaning values = side.meaning values ↔
      ∀ name ∈ side.names, isVariable name = false → upperString name ∈ names →
        values (upperString name) = .leaf (.named (upperString name)) := by
  induction side with
  | atom value pos =>
    cases value with
    | symbol name =>
      simp only [SExpr.names, List.mem_singleton, forall_eq, capitalized, meaning]
      by_cases folded : upperString name ∈ names
      · rw [if_pos folded, if_pos (known _ folded)]
        cases written : isVariable name with
        | true => simp [upperString_of_isVariable written]
        | false => simp [folded]
      · simp [folded]
    | _ => simp [SExpr.names, capitalized, meaning]
  | cons car cdr pos stepCar stepCdr =>
    simp only [capitalized, meaning, SExpr.names, Tree.node.injEq, stepCar, stepCdr]
    exact List.forall_mem_append.symm

end SExpr

namespace Source

theorem lowerRule_same (plain : ∀ name ∈ side.names, PlainName name) : lowerRule side side =
    .ok [.unaryCall "BACKQUOTE" (patternOf side), .atom .true none,
      .unaryCall "BACKQUOTE" (templateOf (side.capitalized side.variableNames))] := by
  have taken (name : String) (_ : name ∈ side.names) (folded : upperString name ∈ side.variableNames) :
      isVariable (upperString name) = true := (SExpr.mem_variableNames.mp folded).2
  rw [lowerRule, lowerPattern_eq plain]
  dsimp only [bind, Except.bind]
  rw [List.nil_append, lowerTemplate_capitalized plain (fun _ member => member) taken]
  rfl

/-! ### Rules that give back what they match -/

/-- A variable is bound to its own symbol. -/
def BoundToItself (heap : Heap) (code : Set NodeId) (bindings : Bindings) (name : String) : Prop :=
  ∃ value, bindings.find? name = some value ∧ heap.Shows code value (.leaf (.named name))

theorem boundToItself_iff {heap : Heap} {code : Set NodeId} {bindings : Bindings} {trees : Table Tree}
    (bears : heap.Bears code bindings trees) (bound : trees.find? name = some (values name)) :
    BoundToItself heap code bindings name ↔ values name = .leaf (.named name) := by
  obtain ⟨node, found, holds⟩ := bears.exists_find? bound
  constructor
  · rintro ⟨value, again, shows⟩
    cases found.symm.trans again
    exact holds.shows.unique shows
  · intro own
    exact ⟨node, found, own ▸ holds.shows⟩

/-- **A form on both sides of a rule gives back a term if and only if every name that is a variable only in
capitals is bound to its own symbol.** This is so for whatever term without floats the pattern matches, and
wherever the template is then evaluated, given two levels and a round for each of its parts. In particular
every term is given back if no name of the form is a variable only in capitals. -/
theorem restores_iff (plain : ∀ name ∈ side.names, PlainName name) :
    ∃ pattern template : SExpr,
      lowerRule side side = .ok [.unaryCall "BACKQUOTE" pattern, .atom .true none,
        .unaryCall "BACKQUOTE" template] ∧
      ∀ (heap : Heap) (code : Set NodeId) (node term : NodeId) (tree : Tree) (bindings : Bindings),
        heap.Shows code node pattern.bare → heap.Shows code term tree → tree.FloatFree →
        heap.match? node term = some (some bindings) →
        ∀ (interp : Interpreter) (later : Heap) (form : NodeId) (rounds levels : Nat),
          heap.Retains later → interp.Showable later →
          later.Shows code form (SExpr.unaryCall "BACKQUOTE" template).bare →
          (SExpr.unaryCall "BACKQUOTE" template).bare.size ≤ rounds → 2 ≤ levels →
          Returns (serve rounds levels (.value form)) (interp.mapEnv (·.pushWith bindings.entries)) later
            fun value last => ∃ same, last.equal? value term = some same ∧
              (same = true ↔ ∀ name ∈ side.names, isVariable name = false →
                upperString name ∈ side.variableNames →
                  BoundToItself heap code bindings (upperString name)) := by
  refine ⟨patternOf side, templateOf (side.capitalized side.variableNames), lowerRule_same plain, ?_⟩
  intro heap code node term tree bindings shows shown free found interp later form rounds levels retains
    showable shape small deep
  have steady := shown.steady free
  obtain ⟨outcome, foundToo, related⟩ := (shown.holds free).exists_match? shows
  cases found.symm.trans foundToo
  obtain ⟨trees, met, bears⟩ := Heap.exists_of_rel_some related
  let values := Tree.valuesOf trees
  have means : side.meaning values = tree := by
    rw [← inst_patternOf plain]
    exact (Tree.matched_of_matchFrom? free met).inst _ (Tree.extends_valuesOf trees)
  have bound := find?_of_match?_patternOf plain free steady met
    ((Tree.same_iff_eq free steady).mpr means)
  have kept := bears.retained retains
  have filled := fill_templateOf (SExpr.plain_capitalized plain) fun name member =>
    bound name (SExpr.mem_variableNames_capitalized member)
  refine (evaluates_backquote (showable.printable.pushWith kept.exists_shows) (kept.gives interp) filled form rounds levels shape
    small deep).imp fun value last retainsLast shownValue => ?_
  refine ⟨_, shownValue.equal?_eq ((shown.retained retains).retained retainsLast) steady, ?_⟩
  rw [Tree.same_iff_eq free steady, ← means,
    SExpr.meaning_capitalized_iff fun name member => (SExpr.mem_variableNames.mp member).2]
  refine forall_congr' fun name => forall_congr' fun _ => forall_congr' fun _ => forall_congr' fun folded => ?_
  exact (boundToItself_iff bears (bound _ folded)).symm

/-- The form `(f X x)`. -/
def mixedForm : SExpr := .list [.symbol "f", .symbol "X", .symbol "x"]

theorem plain_mixedForm : ∀ name ∈ mixedForm.names, PlainName name := by
  intro name member
  have listed : name ∈ ["f", "X", "x"] := member
  simp only [List.mem_cons, List.not_mem_nil, or_false] at listed
  rcases listed with rfl | rfl | rfl <;> exact ⟨by decide, by decide, by decide, by decide, by decide⟩

/-- The pattern of `(f X x)` at node 6, its template at node 16, and the terms `(F X X)` and `(F 1 X)` at
nodes 8 and 19. -/
def mixedHeap : Heap := ⟨#[⟨.atom .nil, none⟩, ⟨.atom (.symbol "$X"), none⟩,
  ⟨.atom (.symbol "X"), none⟩, ⟨.atom (.symbol "F"), none⟩, ⟨.cons 2 0, none⟩, ⟨.cons 1 4, none⟩,
  ⟨.cons 3 5, none⟩, ⟨.cons 2 4, none⟩, ⟨.cons 3 7, none⟩, ⟨.atom (.symbol "COMMA"), none⟩,
  ⟨.cons 9 4, none⟩, ⟨.cons 10 0, none⟩, ⟨.cons 10 11, none⟩, ⟨.cons 3 12, none⟩,
  ⟨.atom (.symbol "BACKQUOTE"), none⟩, ⟨.cons 13 0, none⟩, ⟨.cons 14 15, none⟩,
  ⟨.atom (.int 1), none⟩, ⟨.cons 17 4, none⟩, ⟨.cons 3 18, none⟩]⟩

theorem shows_mixedHeap :
    mixedHeap.Shows .univ 6 (patternOf mixedForm).bare ∧
      mixedHeap.Shows .univ 16 (SExpr.unaryCall "BACKQUOTE"
        (templateOf (mixedForm.capitalized mixedForm.variableNames))).bare ∧
      mixedHeap.Shows .univ 8 (.node (.leaf (.symbol "F")) (.node (.leaf (.symbol "X"))
        (.node (.leaf (.symbol "X")) (.leaf .nil)))) ∧
      mixedHeap.Shows .univ 19 (.node (.leaf (.symbol "F")) (.node (.leaf (.int 1))
        (.node (.leaf (.symbol "X")) (.leaf .nil)))) := by
  have last : mixedHeap.Shows .univ 0 (.leaf .nil) := .leaf (by decide) rfl nofun
  have head : mixedHeap.Shows .univ 3 (.leaf (.symbol "F")) := .leaf (by decide) rfl nofun
  have own : mixedHeap.Shows .univ 4 (.node (.leaf (.symbol "X")) (.leaf .nil)) :=
    .node rfl (.leaf (by decide) rfl nofun) last
  have comma : mixedHeap.Shows .univ 10
      (.node (.leaf (.symbol "COMMA")) (.node (.leaf (.symbol "X")) (.leaf .nil))) :=
    .node rfl (.leaf (by decide) rfl nofun) own
  refine ⟨.node rfl head (.node rfl (.leaf (by decide) rfl nofun) own), ?_,
    .node rfl head (.node rfl (.leaf (by decide) rfl nofun) own),
    .node rfl head (.node rfl (.leaf (by decide) rfl nofun) own)⟩
  exact .node rfl (.leaf (by decide) rfl nofun) (.node rfl (.node rfl head
    (.node rfl comma (.node rfl comma last))) last)

/-- The form `(f X x)` gives back the term `(F X X)`. -/
theorem restores_iff_own : ∃ bindings outcome after last,
    mixedHeap.match? 6 8 = some (some bindings) ∧
      (serve 100 2 (.value 16)).execute ((Interpreter.fresh {}).mapEnv (·.pushWith bindings.entries))
        mixedHeap = some ((outcome, after), last) ∧
      ∃ value, outcome = .ok value ∧ last.equal? value 8 = some true := by
  obtain ⟨shows, shape, shown, -⟩ := shows_mixedHeap
  obtain ⟨pattern, template, lowered, restores⟩ := restores_iff plain_mixedForm
  have forms := Except.ok.inj (lowered.symm.trans (lowerRule_same plain_mixedForm))
  have patterns : pattern = patternOf mixedForm := SExpr.unaryCall_inj (List.cons.inj forms).1
  have templates : template = templateOf (mixedForm.capitalized mixedForm.variableNames) :=
    SExpr.unaryCall_inj (List.cons.inj (List.cons.inj (List.cons.inj forms).2).2).1
  subst patterns templates
  have matched : mixedHeap.match? 6 8 = some (some ⟨[("X", 2)]⟩) := rfl
  have own : BoundToItself mixedHeap .univ ⟨[("X", 2)]⟩ "X" :=
    ⟨2, rfl, .leaf (by decide) rfl nofun⟩
  obtain ⟨outcome, after, last, ran, -, -, known⟩ := restores mixedHeap .univ 6 8 _ _ shows shown
    ⟨trivial, trivial, trivial, trivial⟩ matched (.fresh {}) mixedHeap 16 100 2 (.refl mixedHeap) (.inl rfl)
    shape (by decide) le_rfl
  cases outcome with
  | error error => exact absurd rfl known.2
  | ok value =>
    obtain ⟨same, compared, given⟩ := known
    have back : same = true := by
      refine given.mpr fun name member other folded => ?_
      have listed : name ∈ ["f", "X", "x"] := member
      simp only [List.mem_cons, List.not_mem_nil, or_false] at listed
      rcases listed with rfl | rfl | rfl
      · exact absurd folded (by decide)
      · exact absurd other (by decide)
      · rw [show upperString "x" = "X" by decide]
        exact own
    exact ⟨_, _, after, last, matched, ran, value, rfl, back ▸ compared⟩

/-- The form `(f X x)` does not give back the term `(F 1 X)`, which its pattern matches. -/
theorem not_restores :
    ¬ ∀ side : SExpr, (∀ name ∈ side.names, PlainName name) →
      ∀ pattern template : SExpr,
        lowerRule side side = .ok [.unaryCall "BACKQUOTE" pattern, .atom .true none,
          .unaryCall "BACKQUOTE" template] →
        ∀ (heap : Heap) (code : Set NodeId) (node term : NodeId) (tree : Tree) (bindings : Bindings),
          heap.Shows code node pattern.bare → heap.Shows code term tree → tree.FloatFree →
          heap.match? node term = some (some bindings) →
          ∀ (interp : Interpreter) (form : NodeId) (rounds levels : Nat), interp.Showable heap →
            heap.Shows code form (SExpr.unaryCall "BACKQUOTE" template).bare →
            (SExpr.unaryCall "BACKQUOTE" template).bare.size ≤ rounds → 2 ≤ levels →
            Returns (serve rounds levels (.value form)) (interp.mapEnv (·.pushWith bindings.entries)) heap
              fun value last => last.equal? value term = some true := by
  intro restores
  obtain ⟨shows, shape, -, shown⟩ := shows_mixedHeap
  obtain ⟨outcome, after, last, ran, -, -, known⟩ := restores mixedForm plain_mixedForm _ _
    (lowerRule_same plain_mixedForm) mixedHeap .univ 6 19 _ ⟨[("X", 17)]⟩ shows shown
    ⟨trivial, trivial, trivial, trivial⟩ rfl (.fresh {}) 16 100 2 (.inl rfl) shape (by decide) le_rfl
  have differs : ((serve 100 2 (.value 16)).execute
      ((Interpreter.fresh {}).mapEnv (·.pushWith [("X", 17)])) mixedHeap).any (fun ended =>
        ended.1.1.toOption.any fun value => ended.2.equal? value 19 == some false) = true := by
    decide +kernel
  rw [ran] at differs
  cases outcome with
  | error error => cases differs
  | ok value =>
    have unequal : last.equal? value 19 = some false := beq_iff_eq.mp differs
    cases known.symm.trans unequal

end Source

end TermLisp
