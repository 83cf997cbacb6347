import Lox.Proofs.Lexical.Declarations

/-!
The evaluator agrees with lexical scoping on all phrases of programs without faults. One step of it
does so if the phrases inside do, which is shown form by form; the rest is an induction on the fuel.
-/

namespace Lox

open Lexical (Locals Scope)

namespace World

variable {W V : World} {m m' : Machine RefId} {s s' : Lexical.Store RefId} {S : Setting}
  {p : Program} {c : Scoping.Context} {Γ : Names} {locals : Locals} {scope : Scope}
  {w : Watch RefId} {stop : Stop} {fuel : Nat}

/-! Expressions. -/

theorem evalAll_agrees (he : S.EvalAgrees w stop fuel) {es : List (Expr RefId)}
    (hb : S.Before W p Γ m s locals) (stands : Stands p c Γ (.exprs es)) :
    Agrees none W m s (fun V => List.Forall₂ V.Values) (evalAll (w.eval stop S.site fuel) es)
      (evalAll (eval S.site fuel) es) (Lexical.evalAll (Lexical.eval fuel) locals es) := by
  induction es generalizing W m s with
  | nil => exact .pure hb.sees .nil
  | cons e es ih =>
    obtain ⟨head, tail⟩ := stands.exprs hb.faultless
    refine (he hb head).bind fun later hv => ?_
    exact (ih (later.before hb) tail).bind fun after hvs =>
      .pure after.sees (.cons (hv.extend after.extension) hvs)

theorem evalStep_agrees (hw : S.Fulfilled w) (hx : S.ExecAgrees w stop fuel)
    (he : S.EvalAgrees w stop fuel) {e : Expr RefId} (hb : S.Before W p Γ m s locals)
    (stands : Stands p c Γ (.expr e)) :
    Agrees none W m s Values
      (w.evalStep stop S.site (w.exec stop S.site fuel) (w.eval stop S.site fuel) e)
      (evalStep S.site (exec S.site fuel) (eval S.site fuel) e)
      (Lexical.evalStep (Lexical.exec fuel) (Lexical.eval fuel) locals e) := by
  have hp := hb.faultless
  cases e with
  | literal v => exact .pure hb.sees (.ofLiteral v)
  | «variable» id name =>
    exact .expect (hw.access hb stands) (read_agrees hb (hb.site_eq (stands.reads hp)))
  | assign id name e =>
    obtain ⟨bound, ordinary⟩ := stands.assigns hp
    refine (he hb (stands.assigned hp)).bind fun later hv => ?_
    refine .expect (hw.access (later.before hb) stands) ?_
    exact (assign_agrees (later.before hb) (hb.site_eq bound) ordinary hv).bind fun after _ =>
      .pure after.sees (hv.extend after.extension)
  | this id keyword =>
    obtain ⟨text, _, _, bound⟩ := stands.this hp
    exact .expect (hw.access hb stands) (read_agrees hb (text ▸ hb.site_eq bound))
  | super id keyword method =>
    exact .expect (hw.access hb stands) (getSuper_agrees hb stands)
  | unary op sign e =>
    exact (he hb (stands.unary hp)).bind fun later hv => .ofExcept later.sees (.unary hv op sign.line)
  | binary op sign l r =>
    obtain ⟨left, right⟩ := stands.binary hp
    refine (he hb left).bind fun later hl => ?_
    exact (he (later.before hb) right).bind fun after hr =>
      .ofExcept after.sees (.binary (hl.extend after.extension) hr op sign.line)
  | logical op sign l r =>
    obtain ⟨left, right⟩ := stands.logical hp
    refine (he hb left).bind fun {V m' s' v v'} later hl => ?_
    rw [hl.decides op]
    cases op.decides v with
    | true => exact .pure later.sees hl
    | false => exact he (later.before hb) right
  | ternary e y n =>
    obtain ⟨condition, yes, no⟩ := stands.ternary hp
    refine (he hb condition).bind fun {V m' s' v v'} later hv => ?_
    rw [hv.truthy]
    cases v.truthy with
    | true => exact he (later.before hb) yes
    | false => exact he (later.before hb) no
  | group e => exact he hb (stands.group hp)
  | call e es line =>
    obtain ⟨callee, arguments⟩ := stands.call hp
    refine (he hb callee).bind fun later hv => ?_
    refine (evalAll_agrees he (later.before hb) arguments).bind fun after hvs => ?_
    exact call_agrees hw hx after.sees (after.before (later.before hb)).programs
      (hv.extend after.extension) hvs line
  | get o name =>
    exact (he hb (stands.get hp)).bind fun later hv => getProperty_agrees later.sees hv name
  | set o name e =>
    obtain ⟨object, value⟩ := stands.set hp
    refine (he hb object).bind fun {V m' s' v v'} later hv => ?_
    rw [hv.fieldsOf?]
    cases v.fieldsOf? with
    | none => exact .raise later.sees _ _
    | some id =>
      refine (he (later.before hb) value).bind fun after hv => ?_
      exact (setField_agrees after.sees id name.text hv).bind fun last _ =>
        .pure last.sees (hv.extend last.extension)
  | lambda line r =>
    refine .getLeft ((newObject_agrees hb.sees).bind fun {V m' s' i i'} later same => ?_)
    obtain rfl : i' = i := same
    have member : p ∈ V.programs := later.extension.programs (hb.programs ▸ hb.member)
    refine .pure later.sees (.lambda i' line ⟨rfl, p, member, c, Γ, .lambda, ?_, stands.lambda hp,
      nofun⟩)
    exact hb.chain.extend later.extension

/-! Statements. -/

/-- Behind a phrase that declares in a scope of its own the same is to be seen as before it. -/
theorem within_agrees {watched q : Run RefId (Outcome RefId EnvId)}
    {l : Lexical.Run RefId (Lexical.Ending RefId)} {Δ : Names} {e e' : EnvId}
    (h : Agrees none W m s (fun V => V.Endings c Δ e) watched q l) (seen : W.Seen Γ e' scope) :
    Agrees none W m s (fun V => V.Endings c Γ e') watched q (Lexical.within scope l) := by
  obtain ⟨same, ends⟩ := h
  refine ⟨same, ?_⟩
  rw [Lexical.within]
  generalize q m = r, hl : l s = t at ends
  cases ends with
  | error stop later =>
    rw [bind_of_error hl]
    exact .error stop later
  | ok later ending =>
    rw [bind_of_ok hl]
    cases ending with
    | normal => exact .ok later (.normal (later.seen seen))
    | broke inside => exact .ok later (.broke inside)
    | returned hv inside nothing => exact .ok later (.returned hv inside nothing)

/-- A statement that is no declaration. -/
theorem branch_agrees (hx : S.ExecAgrees w stop fuel) {a : Stmt RefId}
    (hb : S.Before W p Γ m s scope.locals) (seen : W.Seen Γ m.scope scope)
    (stands : Stands p c Γ (.stmt a)) (plain : a.isDeclaration = false) :
    Agrees none W m s (fun V => V.Endings c Γ m.scope) (w.exec stop S.site fuel a)
      (exec S.site fuel a) (Lexical.exec fuel scope a) := by
  have agrees := hx hb seen stands
  rw [Stmt.own_of_not_declaration plain, Stmt.after_of_not_declaration plain] at agrees
  exact agrees

theorem execStep_agrees (hx : S.ExecAgrees w stop fuel) (he : S.EvalAgrees w stop fuel)
    {a : Stmt RefId} (hb : S.Before W p Γ m s scope.locals) (seen : W.Seen Γ m.scope scope)
    (stands : Stands p c Γ (.stmt a)) :
    Agrees (a.own m.scope) W m s (fun V => V.Endings c (a.after Γ) m.scope)
      (execStep S.site (w.exec stop S.site fuel) (w.eval stop S.site fuel) a)
      (execStep S.site (exec S.site fuel) (eval S.site fuel) a)
      (Lexical.execStep (Lexical.exec fuel) (Lexical.eval fuel) scope a) := by
  have hp := hb.faultless
  cases a with
  | expr e =>
    exact (he hb (stands.expr hp)).bind fun later _ => .pure later.sees (.normal (later.seen seen))
  | print e =>
    refine (he hb (stands.print hp)).bind fun later hv => ?_
    rw [hv.display]
    exact (write_agrees later.sees _).bind fun after _ =>
      .pure after.sees (.normal (after.seen (later.seen seen)))
  | var name initial =>
    exact (defineVariable_agrees he hb seen stands).bind fun later seen =>
      .pure later.sees (.normal seen)
  | block b =>
    have inner := seen_nested hb.chain
    have before : S.Before (W.nested m.scope) p ([] :: Γ)
        { m with environments := m.environments.nest m.scope, scope := W.outline.length } s
        scope.locals :=
      ⟨(hb.sees.nest _).enter _, hb.programs, hb.member, inner.chain⟩
    have body : Agrees _ _ _ _ _ _ _ (Lexical.execAll (Lexical.exec fuel) (some scope.locals) b) :=
      execAll_agrees hx before inner (stands.block hp)
    exact within_agrees (.nest hb.sees body.inScope) seen
  | «if» e y n =>
    obtain ⟨yes, plain⟩ := stands.yes hp
    refine (he hb (stands.condition hp)).bind fun {V m' s' v v'} later hv => ?_
    have hb := later.before hb
    have seen := later.seen seen
    rw [← later.scope] at seen ⊢
    rw [hv.truthy]
    cases v.truthy with
    | true => exact within_agrees (branch_agrees hx hb seen yes plain) seen
    | false =>
      cases n with
      | none => exact .pure hb.sees (.normal seen)
      | some n =>
        obtain ⟨no, plain⟩ := stands.no hp
        exact within_agrees (branch_agrees hx hb seen no plain) seen
  | «while» e b =>
    obtain ⟨condition, body, plain⟩ := stands.loop hp
    refine (he hb condition).bind fun {V m' s' v v'} later hv => ?_
    have hb := later.before hb
    have seen := later.seen seen
    rw [← later.scope] at seen ⊢
    rw [hv.truthy]
    cases v.truthy with
    | false => exact .pure hb.sees (.normal seen)
    | true =>
      refine (branch_agrees hx hb seen body plain).bind fun after ending => ?_
      have hb := after.before hb
      have seen := after.seen seen
      rw [← after.scope] at seen ending ⊢
      cases ending with
      | normal => exact branch_agrees hx hb seen stands rfl
      | broke => exact .pure hb.sees (.normal seen)
      | returned hv inside nothing => exact .pure hb.sees (.returned hv inside nothing)
  | «break» keyword => exact .pure hb.sees (.broke (stands.breaks hp))
  | «return» keyword value =>
    obtain ⟨inside, nothing⟩ := stands.returns hp
    cases value with
    | none => exact .pure hb.sees (.returned .nil inside fun _ => rfl)
    | some e =>
      exact (he hb (stands.answer hp)).bind fun later hv =>
        .pure later.sees (.returned hv inside fun h => absurd h (nothing rfl))
  | function d =>
    obtain ⟨name, r⟩ := d
    refine .getLeft ((newObject_agrees hb.sees).andThen fun {V m' s' i i'} later same => ?_)
    obtain rfl : i' = i := same
    have agrees := defineFunction_agrees (later.before hb) (later.scope ▸ later.seen seen) stands i'
    rw [later.scope] at agrees
    exact agrees
  | «class» name superclass ms cs =>
    exact (defineClass_agrees hb seen stands).bind fun later seen => .pure later.sees (.normal seen)

end World

namespace Setting

variable {S : Setting} {w : Watch RefId} {stop : Stop}

/-- All phrases agree, whatever the fuel. -/
theorem phrases_agree (hw : S.Fulfilled w) (fuel : Nat) :
    S.ExecAgrees w stop fuel ∧ S.EvalAgrees w stop fuel := by
  induction fuel with
  | zero => exact ⟨fun hb _ _ => .throw hb.sees .outOfFuel, fun hb _ => .throw hb.sees .outOfFuel⟩
  | succ fuel ih =>
    obtain ⟨hx, he⟩ := ih
    constructor
    · intro W p c Γ m s scope a hb seen stands
      exact .expect (hw.stmt hb stands) (World.execStep_agrees hx he hb seen stands)
    · intro W p c Γ m s locals e hb stands
      exact .expect (hw.expr hb stands) (World.evalStep_agrees hw hx he hb stands)

end Setting

namespace World

variable {W : World} {m : Machine RefId} {s : Lexical.Store RefId} {S : Setting}
  {p : Program} {w : Watch RefId} {stop : Stop} {fuel : Nat}

/-- Outside of all routines statements end normally. -/
theorem interpretFrom_agrees (hw : S.Fulfilled w) {last : Value RefId EnvId}
    {last' : Value RefId Locals} {ss : List (Stmt RefId)} (hb : S.Before W p [] m s [])
    (stands : Stands p {} [] (.stmts ss)) (hv : W.Values last last') :
    Agrees (some m.scope) W m s Values (w.interpretFrom stop S.site fuel last ss)
      (interpretFrom S.site fuel last ss) (Lexical.interpretFrom fuel last' ss) := by
  have agree : S.ExecAgrees w stop fuel ∧ S.EvalAgrees w stop fuel := Setting.phrases_agree hw fuel
  obtain ⟨hx, he⟩ := agree
  have hp := hb.faultless
  induction ss generalizing W m s last last' with
  | nil => exact .pure hb.sees hv
  | cons a ss ih =>
    obtain ⟨head, tail⟩ := stands.stmts hp
    have behind : a.after [] = [] := Stmt.afterAll_nil [a]
    rw [behind] at tail
    have seen : W.Seen [] m.scope none := hb.chain.global ▸ seen_top
    have statement :
        Agrees (some m.scope) W m s Values
          (do
            let outcome ← w.exec stop S.site fuel a
            Run.expect stop fun _ => w.top outcome
            w.interpretFrom stop S.site fuel last ss)
          (do
            let _ ← exec S.site fuel a
            interpretFrom S.site fuel last ss)
          (do
            let _ ← Lexical.exec fuel none a
            Lexical.interpretFrom fuel last' ss) := by
      have first : Agrees _ _ _ _ _ _ _ (Lexical.exec fuel none a) := hx hb seen head
      refine first.bindOf Later.ofOwn fun later ending => ?_
      cases ending with
      | normal =>
        refine .expect hw.top ?_
        rw [← later.scope]
        exact ih (later.before hb) tail (hv.extend later.extension)
      | broke inside => cases inside
      | returned hv inside => cases inside
    cases a with
    | expr e =>
      refine (he hb (head.expr hp)).andThen fun later hv => ?_
      rw [← later.scope]
      exact ih (later.before hb) tail hv
    | _ => exact statement

theorem interpret_agrees (hw : S.Fulfilled w) (hb : S.Before W p [] m s []) :
    Agrees (some m.scope) W m s Values (w.interpret stop S.site fuel p) (interpret S.site fuel p)
      (Lexical.interpret fuel p) :=
  (interpretFrom_agrees hw hb (.program p) .nil).bind fun later hv =>
    (flush_agrees later.sees).bind fun after _ => .pure after.sees (hv.extend after.extension)

end World

end Lox
