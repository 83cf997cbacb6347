import Lox.Proofs.Lexical.Calls

/-!
Declarations. Before it has its value a declared variable has a slot in the current environment, and
under lexical scoping a cell for that slot; outside of all blocks it is an entry of the table of
globals. What runs in between changes neither, so the value gets to the same place.
-/

namespace Lox

open Lexical (Locals Scope)

namespace World

variable {own : Option EnvId} {W V : World} {m m' : Machine RefId} {s s' : Lexical.Store RefId}
  {S : Setting} {p : Program} {c : Scoping.Context} {Γ : Names} {locals : Locals} {e : EnvId}
  {scope : Scope} {w : Watch RefId} {stop : Stop} {fuel : Nat}

/-- The name has the slot in the environment, and it is what the list finds under the name. -/
structure Declares (W : World) (e : EnvId) (name : String) (slot : Nat) (scope : Scope) : Prop where
  outline : ∃ link names, W.outline[e]? = some (link, names) ∧
    names.findIdx? (· == name) = some slot
  place : match scope.locals.lookup name with
    | some cell => W.places[cell]? = some (e, slot)
    | none => e = .global

theorem Declares.extend {name : String} {slot : Nat} (h : W.Declares e name slot scope)
    (hw : W.Extends V) : V.Declares e name slot scope := by
  obtain ⟨⟨link, names, he, hn⟩, place⟩ := h
  refine ⟨?_, ?_⟩
  · obtain ⟨more, hm⟩ := hw.outline he
    exact ⟨link, names ++ more, hm, by rw [List.findIdx?_append, hn, Option.some_or]⟩
  · cases hl : scope.locals.lookup name with
    | some cell =>
      rw [hl] at place
      exact hw.place place
    | none =>
      rw [hl] at place
      exact place

/-- What is to be seen outside of all blocks. -/
theorem seen_top : W.Seen [] .global none := ⟨.top, trivial, by simp⟩

theorem Chain.global (h : W.Chain [] e locals) : e = .global := by
  cases h
  rfl

theorem Seen.top (h : W.Seen Γ e none) : Γ = [] ∧ e = .global := by
  obtain rfl := h.outside.mp rfl
  exact ⟨rfl, h.chain.global⟩

theorem Seen.inner (h : W.Seen Γ e (some locals)) : ∃ names outer, Γ = names :: outer := by
  cases Γ with
  | nil => exact nomatch h.outside.mpr rfl
  | cons names outer => exact ⟨names, outer, rfl⟩

/-- A declared name has the slot that its declaration answers. -/
theorem Sees.slotFor {name : String} {x : Option EnvId × List String} (h : W.Sees m s)
    (he : W.outline[e]? = some x) {s' : Lexical.Store RefId}
    (h' : V.Sees { m with environments := m.environments.define e name none } s') :
    ∃ link names, V.outline[e]? = some (link, names) ∧
      names.findIdx? (· == name) = some (m.environments.slotFor e name) := by
  obtain ⟨env, hm, _, _⟩ := h.environment he
  refine ⟨env.enclosing, (env.define name none).names, ?_, ?_⟩
  · rw [← h'.outline, Environments.outline_get, Environments.all_define, if_pos rfl, hm]
    simp only [Option.map_some, Environment.enclosing_define]
  · rw [← Environment.slot?_names, Environment.slot?_define, Environments.slotFor, hm]
    rfl

theorem declare_agrees (hs : W.Sees m s) (seen : W.Seen Γ m.scope scope) {name : Lexeme}
    (fresh : Γ.Fresh name.text) (ordinary : name.Ordinary) :
    Agrees (some m.scope) W m s
      (fun V slot scope => V.Seen (Γ.declare name.text) m.scope scope ∧
        V.Declares m.scope name.text slot scope)
      (Run.declare name.text) (Run.declare name.text) (Lexical.declare scope name.text) := by
  cases scope with
  | none =>
    obtain ⟨rfl, hg⟩ := seen.top
    obtain ⟨environments, e, objects, host⟩ := m
    obtain rfl : e = .global := hg
    obtain ⟨env, hm, hl, _⟩ := hs.globals
    have he : W.outline[EnvId.global]? = some (none, env.names) := by
      rw [← hs.outline, Environments.outline_get, hm, Option.map_some, hl]
    have later := Later.defineGlobal hs name.text .none
    exact .step rfl rfl later ⟨seen_top, hs.slotFor he later.sees, rfl⟩
  | some locals =>
    obtain ⟨names, outer, rfl⟩ := seen.inner
    have new : name.text ∉ names := fresh
    obtain ⟨link, he⟩ := seen.exact
    have later := Later.define hs seen new .none (special_of_ordinary ordinary _)
    obtain ⟨env, hm, _, hn⟩ := hs.environment he
    have slot : m.environments.slotFor m.scope name.text = names.length := by
      have none : env.slot? name.text = none := by
        rw [Environment.slot?_names, hn, List.findIdx?_eq_none_iff]
        exact fun x hx => beq_eq_false_iff_ne.mpr fun h => new (h ▸ hx)
      rw [Environments.slotFor, hm, Option.map_some, Option.getD_some, Environment.slotFor, none,
        Option.getD_none, ← hn, Environment.names, List.length_map]
    rw [Names.declare_cons_of_fresh new]
    refine .step rfl rfl later ⟨seen.declared hs new, hs.slotFor he later.sees, ?_⟩
    have head : List.lookup name.text ((name.text, W.places.length) :: locals) = some W.places.length := by
      rw [List.lookup_cons, beq_self_eq_true]
    simp only [Scope.locals, Option.getD_some, slot, placed, declared, hs.cells, head]
    exact List.getElem?_concat_length

theorem settle_agrees (hs : W.Sees m s) {name : Lexeme} {slot : Nat}
    (hd : W.Declares e name.text slot scope) (ordinary : name.Ordinary) {v : Value RefId EnvId}
    {v' : Value RefId Locals} (hv : W.Values v v') :
    Agrees own W m s (fun _ _ _ => True) (Run.put e slot v) (Run.put e slot v)
      (Lexical.settle scope name.text v') := by
  obtain ⟨⟨link, names, he, hn⟩, place⟩ := hd
  unfold Lexical.settle
  cases hl : scope.locals.lookup name.text with
  | some cell =>
    rw [hl] at place
    obtain ⟨hi, hx, _⟩ := List.findIdx?_eq_some_iff_getElem.mp hn
    have entry : names[slot]? = some name.text := by
      rw [List.getElem?_eq_getElem hi, beq_iff_eq.mp hx]
    exact .step rfl rfl (.same (hs.put place he entry hv (special_of_ordinary ordinary _)) rfl) trivial
  | none =>
    rw [hl] at place
    obtain rfl : e = .global := place
    obtain ⟨env, hm, _, rfl⟩ := hs.environment he
    have known : s.globals.slot? name.text = some slot := by
      rw [hs.slot?, Environments.slot?, hm, Option.bind_some, Environment.slot?_names, hn]
    have again : s.globals.define name.text (some v') = s.globals.putSlot slot (some v') := by
      simp only [Environment.define, known]
    have defined : Lexical.defineGlobal name.text (some v') s =
        .ok () { s with globals := s.globals.putSlot slot (some v') } := again ▸ rfl
    exact .step rfl defined (.same (hs.putGlobal slot hv) rfl) trivial

/-- A value may come at once or after the declaration. -/
theorem declare_put {α : Type} (name : String) (v : Value RefId EnvId) (k : Run RefId α) :
    (do
      let slot ← Run.declare name
      Run.put m.scope slot v
      k) m =
    (do
      Run.define m.scope name (some v)
      k) m :=
  congrArg (fun environments => k { m with environments }) (m.environments.define_put m.scope name v)

theorem defineFunction_agrees (hb : S.Before W p Γ m s scope.locals) (seen : W.Seen Γ m.scope scope)
    {name : Lexeme} {r : Routine RefId} (stands : Stands p c Γ (.stmt (.function ⟨name, r⟩)))
    (id : ObjectId) :
    Agrees (some m.scope) W m s (fun V => V.Endings c (Γ.declare name.text) m.scope)
      (do
        Run.define m.scope name.text (some (.function id ⟨name.text, ⟨r, m.scope⟩, false⟩))
        return .normal)
      (do
        Run.define m.scope name.text (some (.function id ⟨name.text, ⟨r, m.scope⟩, false⟩))
        return .normal)
      (do
        let scope ← Lexical.declare scope name.text
        Lexical.settle scope name.text (.function id ⟨name.text, ⟨r, scope.locals⟩, false⟩)
        return .behind scope) := by
  obtain ⟨fresh, ordinary⟩ := stands.names hb.faultless
  refine .congr (declare_put _ _ _).symm ?_
  refine (declare_agrees hb.sees seen fresh ordinary).bind fun {V m' s' slot scope'} later ⟨seen, hd⟩ => ?_
  have member : p ∈ V.programs := later.extension.programs (hb.programs ▸ hb.member)
  have value : V.Values (.function id ⟨name.text, ⟨r, m.scope⟩, false⟩)
      (.function id ⟨name.text, ⟨r, scope'.locals⟩, false⟩) :=
    .function id ⟨rfl, rfl, rfl, p, member, c, _, .function, seen.chain,
      stands.function hb.faultless, nofun⟩
  exact (settle_agrees later.sees hd ordinary value).andThen fun after _ =>
    .pure after.sees (.normal (after.seen seen))

theorem readSuperclass_agrees (hb : S.Before W p Γ m s locals) {superclass : Option (RefId × Lexeme)}
    (bound : ∀ id name, superclass = some (id, name) → S.site id = Γ.binding? name.text) :
    Agrees none W m s
      (fun V k k' => Option.Rel V.Classes k k' ∧ k.isSome = superclass.isSome)
      (readSuperclass S.site superclass) (readSuperclass S.site superclass)
      (Lexical.readSuperclass locals superclass) := by
  cases superclass with
  | none => exact .pure hb.sees ⟨.none, rfl⟩
  | some clause =>
    obtain ⟨id, name⟩ := clause
    refine (read_agrees hb (bound id name rfl)).bind fun later hv => ?_
    cases hv with
    | «class» hk => exact .pure later.sees ⟨.some hk, rfl⟩
    | _ => exact .raise later.sees _ _

theorem methodScope_agrees (hs : W.Sees m s) (chain : W.Chain Γ m.scope locals)
    {k : Option (Class RefId EnvId)} {k' : Option (Class RefId Locals)}
    (hk : Option.Rel W.Classes k k') {α : Type} {superclass : Option α}
    (some_iff : k.isSome = superclass.isSome) :
    Agrees none W m s (fun V => V.Chain (Names.behindClause superclass Γ)) (methodScope k)
      (methodScope k) (Lexical.methodLocals locals k') := by
  cases hk with
  | none =>
    cases superclass with
    | some _ => cases some_iff
    | none => exact .getLeft (.pure hs chain)
  | @some k k' hk =>
    cases superclass with
    | none => cases some_iff
    | some _ =>
      have grows := (W.grows_nested m.scope).toExtends
      have special : Special "super" (some (.class k)) := ⟨nofun, fun _ => ⟨_, rfl⟩⟩
      refine .nest hs ?_
      exact (define_agrees (hs.nest _) (seen_nested chain) List.not_mem_nil
        (.some (.class (hk.extend grows))) special).bind fun later seen => .pure later.sees seen.chain

theorem methodTable_alike {e : EnvId} (hp : p ∈ W.programs) (chain : W.Chain Γ e locals)
    {initializer : Lexeme → Bool} {ds : List (Definition RefId)}
    (stands : ∀ d ∈ ds, ∃ c kind, Stands p c (["this"] :: Γ) (.routine kind d.routine) ∧
      (initializer d.name → kind = .initializer)) :
    List.Forall₂ W.Methods (methodTable e initializer ds) (methodTable locals initializer ds) := by
  unfold methodTable
  rw [List.forall₂_reverse_iff, List.forall₂_map_left_iff, List.forall₂_map_right_iff,
    List.forall₂_same]
  intro d hd
  obtain ⟨c, kind, inside, initial⟩ := stands d hd
  exact ⟨rfl, rfl, rfl, p, hp, c, Γ, kind, chain, inside, fun h => ⟨initial h, _, rfl⟩⟩

/-- The methods of a class have the class above and its name around them. -/
theorem defineClass_agrees (hb : S.Before W p Γ m s scope.locals) (seen : W.Seen Γ m.scope scope)
    {name : Lexeme} {superclass : Option (RefId × Lexeme)} {ms cs : List (Definition RefId)}
    (stands : Stands p c Γ (.stmt (.class name superclass ms cs))) :
    Agrees (some m.scope) W m s (fun V _ scope => V.Seen (Γ.declare name.text) m.scope scope)
      (defineClass S.site name superclass ms cs) (defineClass S.site name superclass ms cs)
      (Lexical.defineClass scope name superclass ms cs) := by
  obtain ⟨fresh, ordinary⟩ := stands.defines hb.faultless
  obtain ⟨d, methods, classMethods⟩ := stands.members hb.faultless
  refine (readSuperclass_agrees hb ?_).andThen fun {V m₁ s₁ k k'} later₁ ⟨hk, same⟩ => ?_
  · rintro id above rfl
    exact hb.site_eq (stands.inherits hb.faultless).2.2
  have seen := later₁.seen seen
  rw [← later₁.scope] at seen ⊢
  refine (declare_agrees later₁.sees seen fresh ordinary).bind
    fun {V₂ m₂ s₂ slot scope'} later₂ ⟨seen, hd⟩ => ?_
  rw [← later₂.scope] at seen hd ⊢
  refine (methodScope_agrees later₂.sees seen.chain (hk.imp fun _ _ h => h.extend later₂.extension)
    same).andThen fun {V₃ m₃ s₃ around locals} later₃ chain => ?_
  refine (newObject_agrees later₃.sees).andThen fun {V₄ m₄ s₄ i i'} later₄ equal => ?_
  obtain rfl : i' = i := equal
  refine .getLeft ?_
  have same₄ : m₄.scope = m₂.scope := later₄.scope.trans later₃.scope
  have extension := (later₁.extension.trans later₂.extension).trans
    (later₃.extension.trans later₄.extension)
  have member : p ∈ V₄.programs := extension.programs (hb.programs ▸ hb.member)
  have value : V₄.Values
      (.class ⟨i', name.text, k, methodTable around (·.text == Scoping.initializerName) ms,
        methodTable around (fun _ => false) cs⟩)
      (.class ⟨i', name.text, k', methodTable locals (·.text == Scoping.initializerName) ms,
        methodTable locals (fun _ => false) cs⟩) := by
    refine .class (.of _ _ ?_ ?_ ?_)
    · exact hk.imp fun _ _ h => h.extend (later₂.extension.trans (later₃.extension.trans later₄.extension))
    · exact methodTable_alike member (chain.extend later₄.extension) fun x hx =>
        ⟨d, _, methods.method hb.faultless x hx, fun h => if_pos (beq_iff_eq.mp h)⟩
    · exact methodTable_alike member (chain.extend later₄.extension) fun x hx =>
        ⟨d, _, classMethods.classMethod hb.faultless x hx, nofun⟩
  rw [same₄]
  have declared := hd.extend (later₃.extension.trans later₄.extension)
  exact ((settle_agrees later₄.sees declared ordinary value).answering fun later₅ _ =>
    later₅.seen (later₄.seen (later₃.seen seen))).weaken

theorem defineVariable_agrees (he : S.EvalAgrees w stop fuel) (hb : S.Before W p Γ m s scope.locals)
    (seen : W.Seen Γ m.scope scope) {name : Lexeme} {initial : Option (Expr RefId)}
    (stands : Stands p c Γ (.stmt (.var name initial))) :
    Agrees (some m.scope) W m s (fun V _ scope => V.Seen (Γ.declare name.text) m.scope scope)
      (defineVariable (w.eval stop S.site fuel) name initial)
      (defineVariable (eval S.site fuel) name initial)
      (Lexical.defineVariable (Lexical.eval fuel) scope name initial) := by
  obtain ⟨fresh, ordinary⟩ := stands.declares hb.faultless
  refine .getLeft ?_
  cases scope with
  | none =>
    obtain ⟨rfl, hg⟩ := seen.top
    dsimp only
    rw [if_pos hg, if_pos hg, hg]
    have defined {W : World} {m : Machine RefId} {s : Lexical.Store RefId} (hs : W.Sees m s)
        {v : Option (Value RefId EnvId)} {v' : Option (Value RefId Locals)}
        (hv : Option.Rel W.Values v v') :
        Agrees (some EnvId.global) W m s (fun V _ scope => V.Seen [] .global scope)
          (Run.define .global name.text v) (Run.define .global name.text v)
          (do
            Lexical.defineGlobal name.text v'
            return none) :=
      .step rfl rfl (.defineGlobal hs name.text hv) seen_top
    cases initial with
    | none => exact defined hb.sees .none
    | some e =>
      have value := (he hb (stands.initial hb.faultless)).map
        (R := fun V => Option.Rel V.Values) Option.Rel.some
      exact value.andThen fun later hv => defined later.sees hv
  | some locals =>
    obtain ⟨names, outer, rfl⟩ := seen.inner
    dsimp only
    rw [if_neg (hb.sees.ne_global seen.chain), if_neg (hb.sees.ne_global seen.chain)]
    refine (declare_agrees hb.sees seen fresh ordinary).bind fun {V m' s' slot scope'} later ⟨seen, hd⟩ => ?_
    cases initial with
    | none => exact .pure later.sees seen
    | some e =>
      refine (he ⟨later.sees, later.grows.same.trans hb.programs, hb.member, ?_⟩
        (stands.initial hb.faultless)).andThen fun after hv => ?_
      · rw [later.scope]
        exact seen.chain
      refine ((settle_agrees after.sees (hd.extend after.extension) ordinary hv).answering
        fun last _ => last.seen (after.seen seen)).weaken

end World

end Lox
