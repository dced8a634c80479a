/-
**Rewriting in lockstep.**

Rules match images as they match what these are images of, and bind the same names to images. So a rule, a
list of rules and the driver do the same on both sides, if what stands below goes in lockstep.

* `follows_applyRule`, `follows_applyRules`: rules on a term;
* `follows_normalizeFrom_normalizeParts`: the rounds of the driver;
* `follows_specialForm`: all special forms.
-/

import TermLisp.Proofs.Lockstep.Forms

namespace TermLisp

namespace Evaluator

variable {link : Link} {self other : Evaluator}

/-! ### Rules -/

theorem follows_applyRule (inStep : link.InStep self other) (rule : Rule) (term : NodeId) :
    Follows link (Option.map link.move) (self.applyRule rule term)
      (other.applyRule (rule.rename link.move) (link.move term)) := by
  refine (Follows.lift (mirrors_matching rule.pattern term)).bind fun found => ?_
  cases found with
  | none => exact .pure none
  | some bindings =>
    refine Follows.withScope bindings.entries ?_
    refine (follows_eval inStep rule.condition).bind fun condition => ?_
    refine (Follows.lift (mirrors_isNil condition)).bind fun fails => ?_
    cases fails with
    | true => exact .pure none
    | false =>
      refine (Follows.lift (mirrors_deepCopy rule.template)).bind fun template => ?_
      refine (follows_eval inStep template).bind fun instantiated => ?_
      exact (follows_splice instantiated).bind fun result => .pure (some result)

theorem follows_applyRules (inStep : link.InStep self other) (rules : List Rule) (term : NodeId) :
    Follows link (Option.map link.move) (self.applyRules rules term)
      (other.applyRules (rules.map (Rule.rename link.move)) (link.move term)) := by
  induction rules generalizing term with
  | nil => exact .pure none
  | cons rule rules step =>
    refine (follows_applyRule inStep rule term).bind fun found => ?_
    cases found with
    | none => exact step term
    | some replacement =>
      refine (step replacement).bind fun later => ?_
      rw [Option.getD_map link.move]
      exact .pure (some (later.getD replacement))

/-! ### The driver -/

theorem follows_rewriteElements (inStep : link.InStep self other) (rules : List Rule) (fuel : Nat)
    (list : NodeId) :
    Follows link (Spine.rename link.move) (self.rewriteElements rules fuel list)
      (other.rewriteElements (rules.map (Rule.rename link.move)) fuel (link.move list)) := by
  induction fuel generalizing list with
  | zero => exact .never
  | succ fuel step =>
    refine (Follows.lift (mirrors_parts list)).bind fun parts => ?_
    cases parts with
    | none => exact .pure (⟨[], list⟩ : Spine)
    | some parts =>
      refine (inStep.below (.normalForm parts.1 rules)).bind fun element => ?_
      refine (Follows.lift (mirrors_setCar list element)).bind fun _ => ?_
      exact (step parts.2).bind fun rest => .pure (⟨list :: rest.pairs, rest.last⟩ : Spine)

/-- Goes through nodes with a node at hand. -/
theorem follows_foldlM {body bodyOther : NodeId → NodeId → Machine NodeId}
    (each : ∀ rest id, Follows link link.move (body rest id)
      (bodyOther (link.move rest) (link.move id)))
    (ids : List NodeId) (start : NodeId) :
    Follows link link.move (ids.foldlM body start)
      ((ids.map link.move).foldlM bodyOther (link.move start)) := by
  induction ids generalizing start with
  | nil => exact .pure start
  | cons id rest step =>
    rw [List.map_cons, List.foldlM_cons, List.foldlM_cons]
    exact (each start id).bind step

/-- Where a rule fires, what it makes is normalized. -/
theorem follows_fire (inStep : link.InStep self other) (rules : List Rule) {fuel : Nat}
    (round : ∀ term, Follows link link.move (self.normalizeFrom rules fuel false term)
      (other.normalizeFrom (rules.map (Rule.rename link.move)) fuel false (link.move term)))
    (term : NodeId) :
    Follows link link.move
      (do
        match ← self.applyRules rules term with
        | some replacement => self.normalizeFrom rules fuel false replacement
        | none => return term)
      (do
        match ← other.applyRules (rules.map (Rule.rename link.move)) (link.move term) with
        | some replacement =>
          other.normalizeFrom (rules.map (Rule.rename link.move)) fuel false replacement
        | none => return link.move term) := by
  refine (follows_applyRules inStep rules term).bind fun found => ?_
  cases found with
  | some replacement => exact round replacement
  | none => exact .pure term

/-- Each round, and each pass through the parts of a term. -/
theorem follows_normalizeFrom_normalizeParts (inStep : link.InStep self other) (rules : List Rule)
    (fuel : Nat) :
    (∀ partsDone term, Follows link link.move (self.normalizeFrom rules fuel partsDone term)
      (other.normalizeFrom (rules.map (Rule.rename link.move)) fuel partsDone (link.move term))) ∧
    ∀ term, Follows link (fun done => done) (self.normalizeParts rules fuel term)
      (other.normalizeParts (rules.map (Rule.rename link.move)) fuel (link.move term)) := by
  induction fuel with
  | zero => exact ⟨fun _ _ => .never, fun _ => .never⟩
  | succ fuel step =>
    obtain ⟨rounds, passes⟩ := step
    constructor
    · intro partsDone term
      cases partsDone with
      | true => exact follows_fire inStep rules (rounds false) term
      | false => exact (passes term).bind fun _ => follows_fire inStep rules (rounds false) term
    · intro term
      refine (follows_rewriteElements inStep rules fuel term).bind fun spine => ?_
      obtain ⟨pairs, last⟩ := spine
      cases pairs with
      | nil => exact .pure ()
      | cons first suffixes =>
        refine (rounds true last).bind fun last => ?_
        rw [← List.map_reverse]
        refine (follows_foldlM (fun rest pair => ?_) suffixes.reverse last).bind fun rest => ?_
        · refine (Follows.lift (mirrors_setCdr pair rest)).bind fun _ => ?_
          exact rounds true pair
        · exact (Follows.lift (mirrors_setCdr first rest)).bind fun _ => .pure ()

theorem follows_normalForm (inStep : link.InStep self other) (term : NodeId) (rules : List Rule) :
    Follows link link.move (self.normalForm term rules)
      (other.normalForm (link.move term) (rules.map (Rule.rename link.move))) := by
  unfold normalForm
  rw [inStep.rounds]
  exact (follows_normalizeFrom_normalizeParts inStep rules self.rounds).1 false term

/-! ### All special forms -/

/-- Every special form does the same on argument forms that correspond. -/
theorem follows_specialForm (inStep : link.InStep self other) (form : SpecialForm)
    (args : List NodeId) :
    Follows link link.move (form.run self args) (form.run other (args.map link.move)) := by
  cases form with
  | quote => exact (follows_arg args 0).bind fun id => .lift (mirrors_deepCopy id)
  | cond => exact follows_evalCond inStep args
  | and => exact follows_evalAnd inStep args
  | or => exact follows_evalOr inStep args
  | sequence => exact follows_evalSequence inStep args
  | bind => exact follows_evalLet inStep args
  | loop => exact follows_evalDo inStep args
  | eachElement => exact follows_evalDolist inStep args
  | defineFunction => exact follows_evalDefun args
  | lambda => exact follows_evalLambda args
  | function => exact follows_evalFunction inStep args
  | call => exact follows_evalFuncall inStep args
  | apply => exact follows_evalApply inStep args
  | assign => exact follows_evalSetf inStep args
  | defineConstant => exact follows_evalGlobal inStep true args
  | defineParameter => exact follows_evalGlobal inStep false args
  | backquote => exact (follows_arg args 0).bind (follows_expand inStep)
  | comma => exact follows_failEval _
  | rewrite => exact follows_evalRewrite inStep args

end Evaluator

end TermLisp
