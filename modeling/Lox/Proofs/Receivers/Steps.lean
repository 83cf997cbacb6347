import Lox.Proofs.Operator
import Lox.Proofs.Receivers.Runs
import Lox.Proofs.ScopeChain

/-!
The smallest steps keep what is known of values. A step that looks for a variable of the program finds a
plain environment; a method that is found gets a receiver that offers it; and the class above, which
`super` leads to, is above the class that the running method is from.
-/

namespace Lox

open Scoping

/-- The method that a class above has for a receiver: a method for an instance, a class method for a
class. -/
def Class.methodFor? {ρ κ : Type} (k : Class ρ κ) (r : Value ρ κ) (name : String) :
    Option (Function ρ κ) :=
  match r with
  | .class _ => k.findClassMethod? name
  | _ => k.findMethod? name

/-- The methods of the class above are offered as well. -/
theorem Value.Offers.above {ρ κ : Type} {r : Value ρ κ} {c k : Class ρ κ} {f g : Function ρ κ}
    {name : String} (h : r.Offers c f) (hk : c.superclass = some k)
    (hg : k.methodFor? r name = some g) : ∃ c', r.Offers c' g ∧ g.name = name := by
  cases h with
  | method id descends hf =>
    obtain ⟨c', up, hg, named⟩ := Class.findMethod?_some hg
    exact ⟨c', .method id (descends.trans (.up hk up)) hg, named⟩
  | classMethod descends hf =>
    obtain ⟨c', up, hg, named⟩ := Class.findClassMethod?_some hg
    exact ⟨c', .classMethod (descends.trans (.up hk up)) hg, named⟩

/-- A phrase of the program is about to run where these names are declared. -/
structure Setting.Ready (S : Setting) (p : Program) (Γ : Names) (m : Machine RefId) (phrase : Phrase) :
    Prop where
  sound : m.Sound S.programs
  member : p ∈ S.programs
  lodged : m.Lodged phrase Γ m.scope

/-- Where `super` stands: `this` is the receiver of a method whose class has a class above, and both are
found where scoping says they are. -/
structure Setting.Super (S : Setting) (m : Machine RefId) (phrase : Phrase) (b : Binding)
    (found : EnvId) (r : Value RefId EnvId) (c k : Class RefId EnvId) (f : Function RefId EnvId) :
    Prop where
  this : m.This m.scope found r
  binds : m.Binds found r c f
  inside : ∃ kind, (Phrase.routine kind f.closure.routine).Encloses phrase
  formed : m.Formed S.programs c
  superclass : c.superclass = some k
  receiver : ∃ d, b.distance = d + 1 ∧ m.environments.getAt m.scope d 0 = .found r
  above : m.environments.getAt m.scope b.distance b.slot = .found (.class k)

namespace Machine

variable {m : Machine RefId} {ps : List Program} {e up outer : EnvId} {r : Value RefId EnvId}
  {c k : Class RefId EnvId} {f : Function RefId EnvId}

theorem Receiver.getSlot (h : m.Receiver e r up) : m.environments.getSlot e 0 = .found r := by
  rw [Environments.getSlot, h]
  rfl

theorem Above.getSlot (h : m.Above e k up) : m.environments.getSlot e 0 = .found (.class k) := by
  rw [Environments.getSlot, h]
  rfl

/-- The class above the one of a method is that in the environment around its methods. -/
theorem Formed.superclass_eq (hc : m.Formed ps c) (hf : f ∈ c.methods ∨ f ∈ c.classMethods)
    (above : m.Above f.closure.scope k outer) : c.superclass = some k := by
  cases hc with
  | base id member stands around plain =>
    rw [Stmt.scope_makes hf] at above
    exact absurd plain above.not_plain
  | derived member stands clausal grown above' around =>
    rw [Stmt.scope_makes hf] at above
    exact congrArg some (above'.unique above)

theorem ancestor?_link {distance : Nat} {found : EnvId}
    (h : m.environments.ancestor? e distance = some found) {env : Environment (Value RefId EnvId)}
    (he : m.environments.all[found]? = some env) (hl : env.enclosing = some up) :
    m.environments.ancestor? e (distance + 1) = some up := by
  induction distance generalizing e with
  | zero =>
    cases h
    exact ancestor?_succ he hl 0
  | succ distance ih =>
    rw [Environments.ancestor?] at h ⊢
    obtain ⟨next, hn, h⟩ := Option.bind_eq_some_iff.mp h
    rw [hn, Option.bind_some]
    exact ih h

end Machine

namespace Setting.Ready

variable {S : Setting} {p : Program} {c : Context} {Γ : Names} {m : Machine RefId}
  {phrase inner : Phrase} (hb : S.Ready p Γ m phrase)

include hb

theorem faultless : Faultless p := S.faultless p hb.member

theorem site_eq {id : RefId} {b : Option Binding} (h : ⟨id, b⟩ ∈ (resolve p).references) :
    S.site id = b := S.bound p hb.member _ h

/-- What is inside runs in the same environment. -/
theorem enter (holds : phrase.Holds inner) : S.Ready p Γ m inner :=
  ⟨hb.sound, hb.member, hb.lodged.enter holds⟩

theorem later {m' : Machine RefId} (h : Receivers.Later S.programs m m') : S.Ready p Γ m' phrase :=
  ⟨h.sound, hb.member, h.scope ▸ hb.lodged.grow h.grows⟩

theorem plain : ∃ link, m.Plain m.scope link := hb.lodged.plain hb.sound.global

/-- A variable of the program is found in a plain environment. -/
theorem place {name : Lexeme} (ordinary : name.Ordinary) {e : EnvId} {slot : Nat}
    (h : m.place? (Γ.binding? name.text) name.text = some (e, slot)) : ∃ link, m.Plain e link := by
  cases hΓ : Γ.binding? name.text with
  | none =>
    rw [hΓ] at h
    obtain ⟨_, _, hp⟩ := Option.map_eq_some_iff.mp h
    cases hp
    exact ⟨none, hb.sound.global⟩
  | some b =>
    obtain ⟨found, link, hf, plain⟩ := hb.lodged.lies.found ordinary hΓ
    simp only [hΓ, Machine.place?, hf, Option.bind_some] at h
    split at h
    · cases h
      exact ⟨link, plain⟩
    · cases h

/-- A name that the language itself declares is found where a method has got its receiver. -/
theorem this {id : RefId} {keyword : Lexeme} (stands : Stands p c Γ (.expr (.this id keyword))) :
    ∃ found r c f kind, m.This m.scope found r ∧ m.Binds found r c f ∧
      (Phrase.routine kind f.closure.routine).Encloses phrase ∧
      Run.read (S.site id) keyword m = .ok r m := by
  obtain ⟨text, d, bound, member⟩ := stands.this hb.faultless
  obtain ⟨found, r, c, f, kind, hf, this, binds, inside, _⟩ := hb.lodged.home bound
  refine ⟨found, r, c, f, kind, this, binds, inside, ?_⟩
  have slot : m.environments.hasSlot found 0 = true := by
    rw [Environments.hasSlot, binds.receiver]
    rfl
  have place : m.place? (S.site id) keyword.text = some (found, 0) := by
    rw [hb.site_eq member, bound]
    simp only [Machine.place?, hf, Option.bind_some, slot, if_true]
  rw [Run.read, Run.get_bind]
  simp only [place, binds.receiver.getSlot]
  rfl

theorem super {id : RefId} {keyword method : Lexeme}
    (stands : Stands p c Γ (.expr (.super id keyword method))) :
    ∃ b found r c k f, S.site id = some b ∧ S.Super m phrase b found r c k f := by
  obtain ⟨text, d, this, super, member⟩ := stands.super hb.faultless
  obtain ⟨found, r, c, f, kind, hf, receives, binds, inside, above⟩ := hb.lodged.home this
  obtain ⟨k, outer, above⟩ := above super
  have formed := (hb.sound.receiver binds.receiver).formed binds.offers
  have up := Machine.ancestor?_link hf binds.receiver rfl
  refine ⟨⟨d + 1, 0⟩, found, r, c, k, f, (hb.site_eq member).trans super, receives, binds,
    ⟨kind, inside⟩, formed, formed.superclass_eq binds.offers.mem above, ⟨d, rfl, ?_⟩, ?_⟩
  · rw [Environments.getAt, hf]
    exact binds.receiver.getSlot
  · rw [Environments.getAt, up]
    exact above.getSlot

end Setting.Ready

/-- The method is looked for from the class above, and gets the same receiver. -/
theorem Setting.Super.getSuper_eq {S : Setting} {m : Machine RefId} {phrase : Phrase} {b : Binding}
    {found : EnvId} {r : Value RefId EnvId} {c k : Class RefId EnvId} {f : Function RefId EnvId}
    (h : S.Super m phrase b found r c k f) (keyword method : Lexeme) :
    getSuper (some b) keyword method m = bindMethod (k.methodFor? r method.text) r method m := by
  obtain ⟨distance, slot⟩ := b
  obtain ⟨d, hd, receiver⟩ := h.receiver
  obtain rfl : distance = d + 1 := hd
  have above := h.above
  have offers := h.binds.offers
  rw [getSuper, Run.get_bind]
  simp only [above, receiver]
  cases offers with
  | method id => rfl
  | classMethod => rfl

/-- A class method that calls for a method above stands in the declaration of a class. -/
theorem Setting.Super.names_initializer {S : Setting} {m : Machine RefId} {id : RefId}
    {keyword method : Lexeme} {b : Binding} {found : EnvId} {r : Value RefId EnvId}
    {j c k : Class RefId EnvId} {f : Function RefId EnvId}
    (h : S.Super m (.expr (.super id keyword method)) b found r c k f) (hr : r = .class j)
    (named : method.text = initializerName) : NamesInitializerAbove S.programs := by
  obtain ⟨kind, inside⟩ := h.inside
  have superclass := h.superclass
  have offers := h.binds.offers
  rw [hr] at offers
  cases offers with
  | classMethod descends hf =>
    cases h.formed with
    | base => cases superclass
    | @derived p context Γ name clause ms cs scope parent before member stands =>
      obtain ⟨d, hd, rfl⟩ := Stmt.mem_classMethods_makes hf
      exact ⟨p, member, context, Γ, name, clause, ms, cs, stands, d, hd, kind, id, keyword, method,
        inside, named⟩

namespace Receivers

open Machine

variable {ps : List Program} {m : Machine RefId}

/-- The value is known. -/
def Trusted (ps : List Program) (m : Machine RefId) (v : Value RefId EnvId) : Prop := m.Trusts ps v

section Steps

variable (hs : m.Sound ps)

include hs

theorem read_safe (b : Option Binding) (name : Lexeme) :
    Safe ps m (Trusted ps) (fun _ => Run.read b name) (Run.read b name) := by
  refine .get ?_
  cases m.place? b name.text with
  | none => exact .raise hs _ _
  | some place =>
    cases hv : m.environments.getSlot place.1 place.2 with
    | found v =>
      simp only [hv]
      exact .pure hs (hs.getSlot hv)
    | unassigned | missing =>
      simp only [hv]
      exact .raise hs _ _

theorem assign_safe {b : Option Binding} {name : Lexeme}
    (plain : ∀ {e slot}, m.place? b name.text = some (e, slot) → ∃ link, m.Plain e link)
    {v : Value RefId EnvId} (hv : m.Trusts ps v) :
    Safe ps m (fun _ _ => True) (fun _ => Run.assign b name v) (Run.assign b name v) := by
  refine .get ?_
  cases hp : m.place? b name.text with
  | none => exact .raise hs _ _
  | some place =>
    obtain ⟨link, plain⟩ := plain hp
    exact .step rfl (.put hs plain place.2 hv) trivial

theorem newObject_safe :
    Safe ps m (fun m' id => id = m.objects.size ∧ id < m'.objects.size) (fun _ => Run.newObject)
      Run.newObject :=
  .step rfl (.newObject hs) ⟨rfl, by simp⟩

theorem setField_safe (id : ObjectId) (name : String) {v : Value RefId EnvId} (hv : m.Trusts ps v) :
    Safe ps m (fun _ _ => True) (fun _ => Run.setField id name v) (Run.setField id name v) :=
  .step rfl (.setField hs id name hv) trivial

theorem define_safe {e : EnvId} {link : Option EnvId} (plain : m.Plain e link) {name : Lexeme}
    (ordinary : name.Ordinary) {a : Option (Value RefId EnvId)}
    (ha : ∀ v, a = some v → m.Trusts ps v) :
    Safe ps m (fun _ _ => True) (fun _ => Run.define e name.text a) (Run.define e name.text a) :=
  .step rfl (.define hs plain ordinary ha) trivial

theorem put_safe {e : EnvId} {link : Option EnvId} (plain : m.Plain e link) (slot : Nat)
    {v : Value RefId EnvId} (hv : m.Trusts ps v) :
    Safe ps m (fun _ _ => True) (fun _ => Run.put e slot v) (Run.put e slot v) :=
  .step rfl (.put hs plain slot hv) trivial

theorem declare_safe {link : Option EnvId} (plain : m.Plain m.scope link) {name : Lexeme}
    (ordinary : name.Ordinary) :
    Safe ps m (fun m' _ => m'.objects = m.objects) (fun _ => Run.declare name.text)
      (Run.declare name.text) :=
  .step rfl (.define hs plain ordinary nofun) rfl

/-- A new environment is plain. -/
theorem nestIn_safe (up : EnvId) :
    Safe ps m (fun m' e => m'.Plain e (some up)) (fun _ => Run.nestIn up) (Run.nestIn up) := by
  refine .step rfl (.nest hs up) ⟨{ enclosing := some up }, ?_, rfl, List.not_mem_nil, List.not_mem_nil⟩
  rw [Environments.all_nest, if_pos rfl]

theorem nest_safe :
    Safe ps m (fun m' e => m'.Plain e (some m.scope)) (fun _ => Run.nest) Run.nest :=
  ⟨fun _ => rfl, (nestIn_safe hs m.scope).ends⟩

theorem write_safe (text : String) :
    Safe ps m (fun _ _ => True) (fun _ => Run.write text) (Run.write text) := by
  refine ⟨fun _ => rfl, ?_⟩
  simp only [Run.write]
  split
  · exact .ok (.setHost hs _) trivial
  · exact .error _ (.setHost hs _)

theorem flush_safe : Safe ps m (fun _ _ => True) (fun _ => Run.flush) Run.flush := by
  refine .get ?_
  split
  · exact .throw hs _
  · exact .pure hs trivial

omit hs in
theorem trusts_ofBare (v : Value Unit Unit) : m.Trusts ps v.ofBare := by
  cases v with
  | bool b => exact .bool b
  | number x => exact .number x
  | string s => exact .string s
  | file handle => exact .file handle
  | _ => exact .nil

theorem native_safe (n : Native) (vs : List (Value RefId EnvId)) (h : vs.length = n.arity) :
    Safe ps m (Trusted ps) (fun _ => Run.native n vs h) (Run.native n vs h) := by
  refine ⟨fun _ => rfl, ?_⟩
  simp only [Run.native]
  rw [n.run_bare vs h (by rw [List.length_map, h])]
  cases hr : n.run (vs.map Value.bare) (by rw [List.length_map, h]) m.host with
  | ok v host =>
    have ran : (Value.ofBare <$> n.run (vs.map Value.bare) (by rw [List.length_map, h]) :
        Native.Action (Value RefId EnvId)) m.host = .ok v.ofBare host := by
      simp only [Functor.map, EStateM.map, hr]
    rw [ran]
    exact .ok (.setHost hs host) (trusts_ofBare v)
  | error fault host =>
    have ran : (Value.ofBare <$> n.run (vs.map Value.bare) (by rw [List.length_map, h]) :
        Native.Action (Value RefId EnvId)) m.host = .error fault host := by
      simp only [Functor.map, EStateM.map, hr]
    rw [ran]
    exact .error _ (.setHost hs host)

/-! Operators. -/

theorem ofExcept_safe {x : Except RuntimeError (Value RefId EnvId)}
    (h : ∀ v, x = .ok v → m.Trusts ps v) :
    Safe ps m (Trusted ps) (fun _ => Run.ofExcept x) (Run.ofExcept x) := by
  cases x with
  | ok v => exact .pure hs (h v rfl)
  | error e => exact .throw hs _

omit hs in
theorem trusts_ofLiteral (l : Literal) : m.Trusts ps (.ofLiteral l) := by
  obtain ⟨b, h⟩ := Value.ofLiteral_ofBare (ρ := RefId) (κ := EnvId) l
  exact h ▸ trusts_ofBare b

omit hs in
theorem trusts_unary {op : UnaryOp} {line : Nat} {v w : Value RefId EnvId}
    (h : op.apply line v = .ok w) : m.Trusts ps w := by
  obtain ⟨b, rfl⟩ := UnaryOp.apply_ofBare h
  exact trusts_ofBare b

omit hs in
theorem trusts_binary {op : BinaryOp} {line : Nat} {v w u : Value RefId EnvId} (hw : m.Trusts ps w)
    (h : op.apply line v w = .ok u) : m.Trusts ps u := by
  obtain rfl | ⟨b, rfl⟩ := BinaryOp.apply_ofBare h
  · exact hw
  · exact trusts_ofBare b

/-! Methods. -/

variable {r : Value RefId EnvId} {c : Class RefId EnvId} {f : Function RefId EnvId}

/-- The new environment binds the method. -/
theorem bind_safe (offers : r.Offers c f) (hr : m.Trusts ps r) :
    Safe ps m (fun m' g => ∃ e, g = f.within e ∧ m'.Binds e r c f) (fun _ => f.bind r) (f.bind r) := by
  have ran : f.bind r m = .ok (f.within m.environments.fresh)
      { m with environments := ⟨m.environments.all.push ⟨[("this", some r)], some f.closure.scope⟩⟩ } := by
    rw [← Environments.define_nest]
    rfl
  refine .step ran (.push hs (.receiver r _) fun x v hx => ?_)
    ⟨_, rfl, Array.getElem?_push_size, offers⟩
  cases List.mem_singleton.mp hx
  exact hr

theorem bindMethod_safe {method : Option (Function RefId EnvId)} (hr : m.Trusts ps r)
    (offered : ∀ f, method = some f → ∃ c, r.Offers c f)
    (named : ∀ f, method = some f → ∀ k, r = .class k → f.name = initializerName →
      NamesInitializerAbove ps) (name : Lexeme) :
    Safe ps m (Trusted ps) (fun _ => bindMethod method r name) (bindMethod method r name) := by
  cases method with
  | none => exact .raise hs _ _
  | some f =>
    obtain ⟨c, offers⟩ := offered f rfl
    refine (bind_safe hs offers hr).bind fun later ⟨e, eq, bound⟩ => ?_
    subst eq
    refine (newObject_safe later.sound).bind fun after ⟨_, hi⟩ => .pure after.sound ?_
    exact .method hi (bound.grow after.grows) (named f rfl)

theorem getProperty_safe {v : Value RefId EnvId} (hv : m.Trusts ps v) (name : Lexeme) :
    Safe ps m (Trusted ps) (fun _ => v.getProperty name) (v.getProperty name) := by
  cases v with
  | «instance» id c =>
    refine .get ?_
    cases hf : m.field? id name.text with
    | some w => exact .pure hs (hs.field? hf)
    | none =>
      refine bindMethod_safe hs hv (fun f hm => ?_) (fun f hm k hk => nomatch hk) name
      obtain ⟨k, descends, mem, _⟩ := Class.findMethod?_some hm
      exact ⟨k, .method id descends mem⟩
  | «class» c =>
    simp only [Value.getProperty]
    split
    · exact .raise hs _ _
    · next hn =>
      refine .get ?_
      cases hf : m.field? c.id name.text with
      | some w => exact .pure hs (hs.field? hf)
      | none =>
        refine bindMethod_safe hs hv (fun f hm => ?_) (fun f hm k hk same => ?_) name
        · obtain ⟨k, descends, mem, _⟩ := Class.findClassMethod?_some hm
          exact ⟨k, .classMethod descends mem⟩
        · obtain ⟨_, _, _, named⟩ := Class.findClassMethod?_some hm
          exact absurd (named.symm.trans same) hn
  | _ => exact .raise hs _ _

omit hs in
theorem getSuper_safe {S : Setting} {p : Program} {context : Context} {Γ : Names} {id : RefId}
    {keyword method : Lexeme} (hb : S.Ready p Γ m (.expr (.super id keyword method)))
    (stands : Stands p context Γ (.expr (.super id keyword method))) :
    Safe S.programs m (Trusted S.programs) (fun _ => getSuper (S.site id) keyword method)
      (getSuper (S.site id) keyword method) := by
  obtain ⟨b, found, r, c, k, f, site, super⟩ := hb.super stands
  have bound : Safe S.programs m (Trusted S.programs)
      (fun _ => bindMethod (k.methodFor? r method.text) r method)
      (bindMethod (k.methodFor? r method.text) r method) := by
    refine bindMethod_safe hb.sound (hb.sound.receiver super.binds.receiver) (fun g hg => ?_)
      (fun g hg j hj same => super.names_initializer hj ?_) method
    · obtain ⟨c', offers, _⟩ := super.binds.offers.above super.superclass hg
      exact ⟨c', offers⟩
    · obtain ⟨_, _, named⟩ := super.binds.offers.above super.superclass hg
      exact named.symm.trans same
  refine ⟨fun _ => rfl, ?_⟩
  rw [site, super.getSuper_eq]
  exact bound.ends

end Steps

end Receivers

end Lox
