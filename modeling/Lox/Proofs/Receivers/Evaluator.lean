import Lox.Proofs.Receivers.Calls

/-!
The evaluator keeps what is known of values, in all phrases of programs without faults. One step of it
does so if the phrases inside do, which is shown form by form; the rest is an induction on the fuel.
-/

namespace Lox

open Scoping Machine

namespace Receivers

variable {S : Setting} {w : Machine RefId → Watch RefId} {stop : Stop} {fuel : Nat} {p : Program}
  {c : Context} {Γ : Names} {m : Machine RefId}

/-! Expressions. -/

theorem evalAll_safe (he : S.EvalSafe w stop fuel) {es : List (Expr RefId)}
    (hb : S.Ready p Γ m (.exprs es)) (stands : Stands p c Γ (.exprs es)) :
    Safe S.programs m (fun m' vs => ∀ v ∈ vs, m'.Trusts S.programs v)
      (fun n => evalAll ((w n).eval stop S.site fuel) es) (evalAll (eval S.site fuel) es) := by
  induction es generalizing m with
  | nil => exact .pure hb.sound nofun
  | cons e es ih =>
    obtain ⟨head, tail⟩ := stands.exprs hb.faultless
    refine (he (hb.enter ⟨rfl, _, _, _, _, .first {} {} e es⟩) head).bind fun later hv => ?_
    refine (ih ((hb.enter ⟨rfl, _, _, _, _, .rest {} {} e es⟩).later later) tail).bind
      fun after hvs => .pure after.sound ?_
    exact List.forall_mem_cons.mpr ⟨after.trusts hv, hvs⟩

theorem evalStep_safe (hw : S.Met w) (hx : S.ExecSafe w stop fuel) (he : S.EvalSafe w stop fuel)
    {e : Expr RefId} (hb : S.Ready p Γ m (.expr e)) (stands : Stands p c Γ (.expr e)) :
    Safe S.programs m (Trusted S.programs)
      (fun n => (w n).evalStep stop S.site ((w n).exec stop S.site fuel) ((w n).eval stop S.site fuel) e)
      (evalStep S.site (exec S.site fuel) (eval S.site fuel) e) := by
  have hp := hb.faultless
  cases e with
  | literal v => exact .pure hb.sound (trusts_ofLiteral v)
  | «variable» id name => exact .expect (hw.access hb stands) (read_safe hb.sound _ name)
  | assign id name e =>
    obtain ⟨bound, ordinary⟩ := stands.assigns hp
    refine (he (hb.enter ⟨rfl, _, _, _, _, .assigned {} {} id name e⟩) (stands.assigned hp)).bind
      fun later hv => ?_
    have here := hb.later later
    refine .expect (hw.access here stands) ?_
    refine (assign_safe later.sound (fun hp => ?_) hv).bind fun after _ =>
      .pure after.sound (after.trusts hv)
    rw [hb.site_eq bound] at hp
    exact here.place ordinary hp
  | this id keyword => exact .expect (hw.access hb stands) (read_safe hb.sound _ keyword)
  | super id keyword method => exact .expect (hw.access hb stands) (getSuper_safe hb stands)
  | unary op sign e =>
    exact (he (hb.enter ⟨rfl, _, _, _, _, .operand {} {} op sign e⟩) (stands.unary hp)).bind
      fun later _ => ofExcept_safe later.sound fun _ => trusts_unary
  | binary op sign l r =>
    obtain ⟨left, right⟩ := stands.binary hp
    refine (he (hb.enter ⟨rfl, _, _, _, _, .left {} {} op sign l r⟩) left).bind fun later _ => ?_
    exact (he ((hb.enter ⟨rfl, _, _, _, _, .right {} {} op sign l r⟩).later later) right).bind
      fun after hr => ofExcept_safe after.sound fun _ => trusts_binary hr
  | logical op sign l r =>
    obtain ⟨left, right⟩ := stands.logical hp
    refine (he (hb.enter ⟨rfl, _, _, _, _, .either {} {} op sign l r⟩) left).bind fun later hl => ?_
    split
    · exact .pure later.sound hl
    · exact he ((hb.enter ⟨rfl, _, _, _, _, .other {} {} op sign l r⟩).later later) right
  | ternary e y n =>
    obtain ⟨condition, yes, no⟩ := stands.ternary hp
    refine (he (hb.enter ⟨rfl, _, _, _, _, .condition {} {} e y n⟩) condition).bind fun later _ => ?_
    split
    · exact he ((hb.enter ⟨rfl, _, _, _, _, .yes {} {} e y n⟩).later later) yes
    · exact he ((hb.enter ⟨rfl, _, _, _, _, .no {} {} e y n⟩).later later) no
  | group e => exact he (hb.enter ⟨rfl, _, _, _, _, .inner {} {} e⟩) (stands.group hp)
  | call e es line =>
    obtain ⟨callee, arguments⟩ := stands.call hp
    refine (he (hb.enter ⟨rfl, _, _, _, _, .callee {} {} e es line⟩) callee).bind fun later hv => ?_
    refine (evalAll_safe he ((hb.enter ⟨rfl, _, _, _, _, .arguments {} {} e es line⟩).later later)
      arguments).bind fun after hvs => ?_
    exact call_safe hw hx after.sound (after.trusts hv) hvs line
  | get o name =>
    exact (he (hb.enter ⟨rfl, _, _, _, _, .object {} {} o name⟩) (stands.get hp)).bind
      fun later hv => getProperty_safe later.sound hv name
  | set o name e =>
    obtain ⟨object, value⟩ := stands.set hp
    refine (he (hb.enter ⟨rfl, _, _, _, _, .target {} {} o name e⟩) object).bind
      fun {m' v} later hv => ?_
    cases v.fieldsOf? with
    | none => exact .raise later.sound _ _
    | some id =>
      refine (he ((hb.enter ⟨rfl, _, _, _, _, .value {} {} o name e⟩).later later) value).bind
        fun after hv => ?_
      exact (setField_safe after.sound id name.text hv).bind fun last _ =>
        .pure last.sound (last.trusts hv)
  | lambda line r =>
    refine .get ((newObject_safe hb.sound).bind fun {m' id} later ⟨_, hi⟩ => .pure later.sound ?_)
    have lodged := (hb.enter ⟨rfl, _, _, _, _, .lambda {} {} line r⟩).lodged
    exact .lambda line hi ⟨p, hb.member, c, Γ, .lambda, stands.lambda hp, lodged.grow later.grows⟩

/-! Declarations. -/

theorem defineVariable_safe (he : S.EvalSafe w stop fuel) {name : Lexeme}
    {initial : Option (Expr RefId)} (hb : S.Ready p Γ m (.stmt (.var name initial)))
    (stands : Stands p c Γ (.stmt (.var name initial))) :
    Safe S.programs m (fun _ _ => True)
      (fun n => defineVariable ((w n).eval stop S.site fuel) name initial)
      (defineVariable (eval S.site fuel) name initial) := by
  have ordinary := (stands.declares hb.faultless).2
  obtain ⟨link, plain⟩ := hb.plain
  have ready {e : Expr RefId} (hi : initial = some e) {m' : Machine RefId}
      (later : Later S.programs m m') : S.Ready p (Γ.declare name.text) m' (.expr e) := by
    subst hi
    have value : Phrase.Holds (.stmt (.var name (some e))) (.expr e) :=
      ⟨rfl, _, _, _, _, .initial {} {} name e⟩
    refine ⟨later.sound, hb.member, ?_⟩
    rw [later.scope]
    exact ((hb.lodged.enter value).declare ordinary).grow later.grows
  -- a name of the program itself is defined after its value is known, another one before
  have defined {m' : Machine RefId} (later : Later S.programs m m') {a : Option (Value RefId EnvId)}
      (hv : ∀ v, a = some v → m'.Trusts S.programs v) :
      Safe S.programs m' (fun _ _ => True) (fun _ => Run.define m.scope name.text a)
        (Run.define m.scope name.text a) :=
    define_safe later.sound (plain.grow later.grows) ordinary hv
  refine .get ?_
  by_cases hg : m.scope = EnvId.global
  · simp only [if_pos hg]
    cases initial with
    | none => exact defined (.refl hb.sound) nofun
    | some e =>
      refine ((he (ready rfl (.refl hb.sound)) (stands.initial hb.faultless)).map (f := some)
        (R := fun m' a => ∀ v, a = some v → m'.Trusts S.programs v) fun hv v h => ?_).bind
        fun later hv => defined later hv
      cases h
      exact hv
  · simp only [if_neg hg]
    refine (declare_safe hb.sound plain ordinary).bind fun later _ => ?_
    cases initial with
    | none => exact .pure later.sound trivial
    | some e =>
      exact (he (ready rfl later) (stands.initial hb.faultless)).bind fun after hv =>
        put_safe after.sound (plain.grow (later.grows.trans after.grows)) _ hv

/-- The class above is what the clause leads to. -/
theorem readSuperclass_safe (hs : m.Sound S.programs) (superclass : Option (RefId × Lexeme)) :
    Safe S.programs m
      (fun m' parent => m' = m ∧ match superclass, parent with
        | none, none => True
        | some clause, some k =>
          Run.read (S.site clause.1) clause.2 m = .ok (.class k) m ∧ m.Rooted S.programs k
        | _, _ => False)
      (fun _ => readSuperclass S.site superclass) (readSuperclass S.site superclass) := by
  refine ⟨fun _ => rfl, ?_⟩
  cases superclass with
  | none => exact .ok (.refl hs) ⟨rfl, trivial⟩
  | some clause =>
    obtain ⟨id, above⟩ := clause
    have ends := (read_safe hs (S.site id) above).ends
    simp only [readSuperclass]
    cases hr : Run.read (S.site id) above m with
    | error stop m' =>
      rw [hr] at ends
      cases ends with
      | error _ later =>
        rw [bind_of_error hr]
        exact .error stop later
    | ok v m' =>
      obtain rfl := read_ok hr
      rw [hr] at ends
      cases ends with
      | ok later hv =>
        rw [bind_of_ok hr]
        cases hv with
        | «class» rooted => exact .ok later ⟨rfl, hr, rooted⟩
        | _ => exact .error _ later

/-- The environment around the methods of a class is the current one, or one for the class above. -/
theorem methodScope_safe (hs : m.Sound S.programs) {parent : Option (Class RefId EnvId)}
    (rooted : ∀ k, parent = some k → m.Rooted S.programs k) :
    Safe S.programs m
      (fun m' scope => m'.objects = m.objects ∧ m'.Surrounds parent scope m.scope)
      (fun _ => methodScope parent) (methodScope parent) := by
  cases parent with
  | none => exact .get (.pure hs ⟨rfl, rfl⟩)
  | some k =>
    have ran : methodScope (some k) m = .ok m.environments.fresh
        { m with environments := ⟨m.environments.all.push ⟨[("super", some (.class k))], some m.scope⟩⟩ } := by
      rw [← Environments.define_nest]
      rfl
    refine .step ran (.push hs (.above k _) fun x v hx => ?_)
      ⟨rfl, Array.getElem?_push_size⟩
    cases List.mem_singleton.mp hx
    exact .class (rooted k rfl)

/-- A class value comes from its declaration. -/
theorem defineClass_safe {name : Lexeme} {superclass : Option (RefId × Lexeme)}
    {ms cs : List (Definition RefId)} (hb : S.Ready p Γ m (.stmt (.class name superclass ms cs)))
    (stands : Stands p c Γ (.stmt (.class name superclass ms cs))) :
    Safe S.programs m (fun _ _ => True) (fun _ => defineClass S.site name superclass ms cs)
      (defineClass S.site name superclass ms cs) := by
  have ordinary := (stands.defines hb.faultless).2
  obtain ⟨link, plain⟩ := hb.plain
  have around := (hb.lodged.declare ordinary).lies
  refine (readSuperclass_safe hb.sound superclass).bind fun {m₁ parent} later₁ ⟨same, clausal⟩ => ?_
  subst same
  have rooted₁ (k : Class RefId EnvId) (hk : parent = some k) : m₁.Rooted S.programs k := by
    subst hk
    cases superclass with
    | none => cases clausal
    | some clause => exact clausal.2
  refine (declare_safe hb.sound plain ordinary).bind fun {m₂ slot} later₂ objects₂ => ?_
  have rooted₂ (k : Class RefId EnvId) (hk : parent = some k) : m₂.Rooted S.programs k :=
    (rooted₁ k hk).grow (List.Subset.refl _) later₂.grows
  refine (methodScope_safe later₂.sound rooted₂).bind
    fun {m₃ scope} later₃ ⟨objects₃, above⟩ => ?_
  refine (newObject_safe later₃.sound).bind fun {m₄ id} later₄ ⟨next, hi⟩ => .get ?_
  have later := later₂.trans (later₃.trans later₄)
  rw [objects₃, objects₂] at next
  subst next
  have formed : m₄.Formed S.programs (Stmt.makes name ms cs scope m₁.objects.size parent) := by
    cases parent with
    | none =>
      cases superclass with
      | some clause => cases clausal
      | none =>
        have here : scope = m₁.scope := Eq.trans above later₂.scope
        exact .base _ hb.member stands (here ▸ around.grow later.grows)
          (here ▸ plain.grow later.grows)
    | some k =>
      cases superclass with
      | none => cases clausal
      | some clause =>
        rw [later₂.scope] at above
        have clausal := hb.site_eq (stands.inherits hb.faultless).2.2 ▸ clausal.1
        exact .derived hb.member stands clausal later.grows (above.grow later₄.grows)
          (around.grow later.grows)
  have rooted : m₄.Rooted S.programs (Stmt.makes name ms cs scope m₁.objects.size parent) := by
    intro k hk
    cases hk with
    | refl => exact ⟨formed, hi⟩
    | up hp descends =>
      exact (rooted₂ _ hp).grow (List.Subset.refl _) (later₃.trans later₄).grows k descends
  rw [later.scope]
  exact put_safe later₄.sound (plain.grow later.grows) slot (.class rooted)

/-! Statements. -/

theorem execStep_safe (hx : S.ExecSafe w stop fuel) (he : S.EvalSafe w stop fuel) {a : Stmt RefId}
    (hb : S.Ready p Γ m (.stmt a)) (stands : Stands p c Γ (.stmt a)) :
    Safe S.programs m (fun m' outcome => ∀ v, outcome = .returned v → m'.Trusts S.programs v)
      (fun n => execStep S.site ((w n).exec stop S.site fuel) ((w n).eval stop S.site fuel) a)
      (execStep S.site (exec S.site fuel) (eval S.site fuel) a) := by
  have hp := hb.faultless
  cases a with
  | expr e =>
    exact (he (hb.enter ⟨rfl, _, _, _, _, .expr {} {} e⟩) (stands.expr hp)).bind fun later _ =>
      .pure later.sound nofun
  | print e =>
    exact (he (hb.enter ⟨rfl, _, _, _, _, .print {} {} e⟩) (stands.print hp)).bind fun later _ =>
      (write_safe later.sound _).bind fun after _ => .pure after.sound nofun
  | var name initial =>
    exact (defineVariable_safe he hb stands).bind fun later _ => .pure later.sound nofun
  | block b =>
    refine (nest_safe hb.sound).bind fun {m' e} later plain => ?_
    have inside := (hb.lodged.enter ⟨rfl, _, _, _, _, .block {} {} b⟩).grow later.grows
    have ready : S.Ready p ([] :: Γ) { m' with scope := e } (.stmts b) :=
      ⟨later.sound.enter e, hb.member, Machine.Lodged.grow
        (.inner ⟨List.not_mem_nil, List.not_mem_nil⟩ plain inside) (.of_eq rfl (Nat.le_refl _))⟩
    exact (execAll_safe hx ready (stands.block hp)).inScope fun scope answered v hv =>
      (answered v hv).enter scope
  | «if» e y n =>
    refine (he (hb.enter ⟨rfl, _, _, _, _, .test {} {} e y n⟩) (stands.condition hp)).bind
      fun later _ => ?_
    split
    · exact hx ((hb.enter ⟨rfl, _, _, _, _, .consequent {} {} e y n⟩).later later) (stands.yes hp).1
    · cases n with
      | none => exact .pure later.sound nofun
      | some n =>
        exact hx ((hb.enter ⟨rfl, _, _, _, _, .alternative {} {} e y n⟩).later later)
          (stands.no hp).1
  | «while» e b =>
    obtain ⟨condition, body, _⟩ := stands.loop hp
    refine (he (hb.enter ⟨rfl, _, _, _, _, .guard {} {} e b⟩) condition).bind fun later _ => ?_
    split
    · refine (hx ((hb.enter ⟨rfl, _, _, _, _, .body {} {} e b⟩).later later) body).bind
        fun {m' outcome} after answered => ?_
      cases outcome with
      | normal => exact hx (hb.later (later.trans after)) stands
      | broke => exact .pure after.sound nofun
      | returned v => exact .pure after.sound answered
    · exact .pure later.sound nofun
  | «break» keyword => exact .pure hb.sound nofun
  | «return» keyword value =>
    cases value with
    | none =>
      refine .pure hb.sound fun v hv => ?_
      cases hv
      exact .nil
    | some e =>
      refine (he (hb.enter ⟨rfl, _, _, _, _, .answer {} {} keyword e⟩) (stands.answer hp)).bind
        fun later hv => .pure later.sound fun v h => ?_
      cases h
      exact hv
  | function d =>
    obtain ⟨name, r⟩ := d
    obtain ⟨_, ordinary⟩ := stands.names hp
    obtain ⟨link, plain⟩ := hb.plain
    refine .get ((newObject_safe hb.sound).bind fun {m' id} later ⟨_, hi⟩ => ?_)
    refine (define_safe later.sound (plain.grow later.grows) ordinary fun v hv => ?_).bind
      fun after _ => .pure after.sound nofun
    cases hv
    have lodged := (hb.lodged.enter ⟨rfl, _, _, _, _, .function {} {} name r⟩).declare ordinary
    exact .function _ hi rfl
      ⟨p, hb.member, c, _, .function, stands.function hp, lodged.grow later.grows⟩
  | «class» name superclass ms cs =>
    exact (defineClass_safe hb stands).bind fun later _ => .pure later.sound nofun

end Receivers

namespace Setting

variable {S : Setting} {w : Machine RefId → Watch RefId}

/-- All phrases are safe, whatever the fuel. -/
theorem phrases_safe (hw : S.Met w) (stop : Stop) (fuel : Nat) :
    S.ExecSafe w stop fuel ∧ S.EvalSafe w stop fuel := by
  induction fuel with
  | zero => exact ⟨fun hb _ => .throw hb.sound .outOfFuel, fun hb _ => .throw hb.sound .outOfFuel⟩
  | succ fuel ih =>
    obtain ⟨hx, he⟩ := ih
    exact ⟨fun hb stands => .expect (hw.stmt hb stands) (Receivers.execStep_safe hx he hb stands),
      fun hb stands => .expect (hw.expr hb stands) (Receivers.evalStep_safe hw hx he hb stands)⟩

/-- Nothing in particular is expected. -/
theorem met_trivial (S : Setting) : S.Met fun _ => {} :=
  ⟨fun _ _ _ => trivial, fun _ _ _ => trivial, fun _ _ _ => trivial, fun _ _ _ => trivial,
    fun _ _ => trivial⟩

section Answers

variable {p : Program} {c : Context} {Γ : Names} {m m' : Machine RefId} {fuel : Nat}

/-- What an expression answers is known. -/
theorem Ready.eval_ok {e : Expr RefId} (hb : S.Ready p Γ m (.expr e)) (stands : Stands p c Γ (.expr e))
    {v : Value RefId EnvId} (h : eval S.site fuel e m = .ok v m') :
    Receivers.Later S.programs m m' ∧ m'.Trusts S.programs v :=
  Receivers.Safe.ok ((S.phrases_safe S.met_trivial .outOfFuel fuel).2 hb stands) h

/-- A value that is about to be called is known, and so are its arguments. -/
theorem Ready.callee_ok {callee : Expr RefId} {arguments : List (Expr RefId)} {line : Nat}
    (hb : S.Ready p Γ m (.expr (.call callee arguments line)))
    (stands : Stands p c Γ (.expr (.call callee arguments line))) {v : Value RefId EnvId}
    {vs : List (Value RefId EnvId)} {m₁ m₂ : Machine RefId}
    (called : eval S.site fuel callee m = .ok v m₁)
    (given : evalAll (eval S.site fuel) arguments m₁ = .ok vs m₂) :
    Receivers.Later S.programs m m₁ ∧ m₁.Trusts S.programs v ∧ Receivers.Later S.programs m₁ m₂ ∧
      ∀ v ∈ vs, m₂.Trusts S.programs v := by
  obtain ⟨first, rest⟩ := stands.call hb.faultless
  obtain ⟨later, hv⟩ :=
    (hb.enter ⟨rfl, _, _, _, _, .callee {} {} callee arguments line⟩).eval_ok first called
  have he : S.EvalSafe (fun _ => {}) .outOfFuel fuel := (S.phrases_safe S.met_trivial _ fuel).2
  exact ⟨later, hv, (Receivers.evalAll_safe he
    ((hb.enter ⟨rfl, _, _, _, _, .arguments {} {} callee arguments line⟩).later later) rest).ok given⟩

/-- A call that ends well has been made. -/
theorem call_ok {site : RefId → Option Binding} {callee : Expr RefId} {arguments : List (Expr RefId)}
    {line : Nat} {w : Value RefId EnvId}
    (h : eval site (fuel + 1) (.call callee arguments line) m = .ok w m') :
    ∃ v m₁ vs m₂, eval site fuel callee m = .ok v m₁ ∧
      evalAll (eval site fuel) arguments m₁ = .ok vs m₂ ∧
      v.call (exec site fuel) vs line m₂ = .ok w m' := by
  obtain ⟨v, m₁, called, h⟩ := bind_ok h
  obtain ⟨vs, m₂, given, h⟩ := bind_ok h
  exact ⟨v, m₁, vs, m₂, called, given, h⟩

end Answers

end Setting

namespace Receivers

variable {S : Setting} {w : Machine RefId → Watch RefId} {p : Program} {m : Machine RefId}

theorem interpretFrom_safe (hw : S.Met w) (stop : Stop) (fuel : Nat) {last : Value RefId EnvId}
    {ss : List (Stmt RefId)} (hb : S.Ready p [] m (.stmts ss)) (stands : Stands p {} [] (.stmts ss))
    (hv : m.Trusts S.programs last) :
    Safe S.programs m (Trusted S.programs) (fun n => (w n).interpretFrom stop S.site fuel last ss)
      (interpretFrom S.site fuel last ss) := by
  obtain ⟨hx, he⟩ := S.phrases_safe hw stop fuel
  have hp := hb.faultless
  induction ss generalizing m last with
  | nil => exact .pure hb.sound hv
  | cons a ss ih =>
    obtain ⟨head, tail⟩ := stands.stmts hp
    have behind : a.after [] = [] := Stmt.afterAll_nil [a]
    have after : S.Ready p [] m (.stmts ss) := behind ▸ hb.after head
    rw [behind] at tail
    have statement : Safe S.programs m (Trusted S.programs)
        (fun n => do
          let outcome ← (w n).exec stop S.site fuel a
          Run.expect stop fun _ => (w n).top outcome
          (w n).interpretFrom stop S.site fuel last ss)
        (do
          let _ ← exec S.site fuel a
          interpretFrom S.site fuel last ss) :=
      (hx hb.head head).bind fun later _ =>
        .expect (fun _ => hw.top _ _) (ih (after.later later) tail (later.trusts hv))
    cases a with
    | expr e =>
      exact (he (hb.head.enter ⟨rfl, _, _, _, _, .expr {} {} e⟩) (head.expr hp)).bind fun later hv =>
        ih (after.later later) tail hv
    | _ => exact statement

theorem interpret_safe (hw : S.Met w) (stop : Stop) (fuel : Nat) (hb : S.Ready p [] m (.stmts p)) :
    Safe S.programs m (Trusted S.programs) (fun n => (w n).interpret stop S.site fuel p)
      (interpret S.site fuel p) :=
  (interpretFrom_safe hw stop fuel hb (.program p) .nil).bind fun later hv =>
    (flush_safe later.sound).bind fun after _ => .pure after.sound (after.trusts hv)

end Receivers

end Lox
