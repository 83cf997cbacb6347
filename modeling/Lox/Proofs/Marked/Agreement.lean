import Lox.Proofs.Lexical.Steps
import Lox.Proofs.Marked.Memory

/-!
Phrases that agree. From two machines that have the same but for marked variables, the evaluator with
marks does what the evaluator does, answers the same, and leaves two such machines. The smallest steps
are shown to agree here; a variable that is read in its place among the scopes has no mark.
-/

namespace Lox

open Scoping

namespace Marked

variable {α β : Type} {own : Option EnvId} {ps : List Program} {O P : Outline}
  {m m' : Lox.Machine RefId} {d d' : Shade} {e : EnvId}

/-- What follows in a run: the outline has grown, and the current environment is the same. No
environment has more names than before but the own one of the phrase, if it has one. -/
structure Later (own : Option EnvId) (ps : List Program) (O : Outline) (m : Lox.Machine RefId)
    (P : Outline) (m' : Lox.Machine RefId) (d' : Shade) : Prop where
  grows : O.Extends P
  sees : Sees ps P m' d'
  scope : m'.scope = m.scope
  kept : ∀ {e : EnvId} {x : Place}, own ≠ some e → O[e]? = some x → P[e]? = some x

/-- Both end in the same way. -/
inductive Ends (own : Option EnvId) (ps : List Program) (O : Outline) (m : Lox.Machine RefId)
    (Q : Outline → α → Prop) :
    EStateM.Result Stop (Lox.Machine RefId) α → EStateM.Result Stop Machine α → Prop
  | ok {a : α} {P : Outline} {m' : Lox.Machine RefId} {d' : Shade}
      (later : Later own ps O m P m' d') (h : Q P a) : Ends own ps O m Q (.ok a m') (.ok a (d'.over m'))
  | error {P : Outline} {m' : Lox.Machine RefId} {d' : Shade} (stop : Stop)
      (later : Later own ps O m P m' d') : Ends own ps O m Q (.error stop m') (.error stop (d'.over m'))

/-- From these machines the phrases end in the same way. -/
def Agrees (own : Option EnvId) (ps : List Program) (O : Outline) (m : Lox.Machine RefId) (d : Shade)
    (Q : Outline → α → Prop) (q : Run α) (p : Lox.Run RefId α) : Prop :=
  Ends own ps O m Q (p m) (q (d.over m))

namespace Later

theorem refl (h : Sees ps O m d) : Later own ps O m O m d := ⟨.refl O, h, rfl, fun _ h => h⟩

theorem trans {U : Outline} {m'' : Lox.Machine RefId} {d'' : Shade}
    (h : Later own ps O m P m' d') (h' : Later own ps P m' U m'' d'') : Later own ps O m U m'' d'' :=
  ⟨h.grows.trans h'.grows, h'.sees, h'.scope.trans h.scope, fun he hx => h'.kept he (h.kept he hx)⟩

theorem chain (h : Later own ps O m P m' d') {Γ : Names} {Δ : Marks}
    (hc : O.Chain Γ Δ m.scope) : P.Chain Γ Δ m'.scope := h.scope ▸ hc.extend h.grows

theorem weaken (h : Later none ps O m P m' d') : Later own ps O m P m' d' :=
  ⟨h.grows, h.sees, h.scope, fun _ hx => h.kept (fun he => nomatch he) hx⟩

/-- The same outline, for a change of values only. -/
theorem same (h : Sees ps O m' d') (hs : m'.scope = m.scope) : Later own ps O m O m' d' :=
  ⟨.refl O, h, hs, fun _ h => h⟩

end Later

theorem Ends.later {Q : Outline → α → Prop} {r : EStateM.Result Stop (Lox.Machine RefId) α}
    {t : EStateM.Result Stop Machine α} (later : Later own ps O m P m' d')
    (h : Ends own ps P m' Q r t) : Ends own ps O m Q r t := by
  cases h with
  | ok after h => exact .ok (later.trans after) h
  | error stop after => exact .error stop (later.trans after)

theorem get_bind_run {ε σ : Type} (k : σ → EStateM ε σ α) (s : σ) : (MonadState.get >>= k) s = k s s :=
  rfl

theorem lift_bind (p : Lox.Run RefId α) (k : α → Lox.Run RefId β) :
    lift (p >>= k) = lift p >>= fun a => lift (k a) := by
  funext ⟨machine, marks⟩
  cases hp : p machine with
  | ok a after =>
    have hl : lift p ⟨machine, marks⟩ = .ok a ⟨after, marks⟩ := by simp only [lift, hp]
    rw [bind_of_ok hl, lift, bind_of_ok hp]
    rfl
  | error stop after =>
    have hl : lift p ⟨machine, marks⟩ = .error stop ⟨after, marks⟩ := by simp only [lift, hp]
    rw [bind_of_error hl, lift, bind_of_error hp]

/-- Where a lifted step is the same as another one. -/
theorem lift_congr {p p' : Lox.Run RefId α} {t : Machine} (h : p t.machine = p' t.machine) :
    lift p t = lift p' t := by
  obtain ⟨machine, marks⟩ := t
  have h : p machine = p' machine := h
  simp only [lift, h]

namespace Agrees

variable {Q : Outline → α → Prop} {R : Outline → β → Prop} {p : Lox.Run RefId α} {q : Run α}
  {k : α → Lox.Run RefId β} {l : α → Run β}

theorem step {a : α} (hp : p m = .ok a m') (hq : q (d.over m) = .ok a (d'.over m'))
    (later : Later own ps O m P m' d') (h : Q P a) : Agrees own ps O m d Q q p := by
  rw [Agrees, hp, hq]
  exact .ok later h

theorem fail {stop : Stop} (hp : p m = .error stop m')
    (hq : q (d.over m) = .error stop (d'.over m')) (later : Later own ps O m P m' d') :
    Agrees own ps O m d Q q p := by
  rw [Agrees, hp, hq]
  exact .error stop later

theorem congr {p' : Lox.Run RefId α} {q' : Run α} (hp : p' m = p m) (hq : q' (d.over m) = q (d.over m))
    (h : Agrees own ps O m d Q q p) : Agrees own ps O m d Q q' p' := by
  rw [Agrees, hp, hq]
  exact h

/-- A lifted step that does the same as another one in both machines. -/
theorem lifted {p' : Lox.Run RefId α} (hp : p' m = p m)
    (hq : p' (d.over m).machine = p (d.over m).machine) (h : Agrees own ps O m d Q (lift p) p) :
    Agrees own ps O m d Q (lift p') p' := h.congr hp (lift_congr hq)

theorem pure (hs : Sees ps O m d) {a : α} (h : Q O a) :
    Agrees own ps O m d Q (Pure.pure a) (Pure.pure a) := .ok (.refl hs) h

theorem throw (hs : Sees ps O m d) (stop : Stop) :
    Agrees own ps O m d Q (throw stop) (throw stop) := .error stop (.refl hs)

theorem raise (hs : Sees ps O m d) (fault : RuntimeFault) (line : Nat) :
    Agrees own ps O m d Q (raise fault line) (Run.raise fault line) := .error _ (.refl hs)

/-- What comes first may change less of the environments than the whole. -/
theorem bindOf {inner : Option EnvId}
    (widen : ∀ {P m' d'}, Later inner ps O m P m' d' → Later own ps O m P m' d')
    (h : Agrees inner ps O m d Q q p)
    (hk : ∀ {P m' d' a}, Later inner ps O m P m' d' → Q P a → Agrees own ps P m' d' R (l a) (k a)) :
    Agrees own ps O m d R (q >>= l) (p >>= k) := by
  rw [Agrees] at h ⊢
  generalize hp : p m = r, hq : q (d.over m) = t at h
  cases h with
  | ok later h =>
    rw [bind_of_ok hp, bind_of_ok hq]
    exact (hk later h : Ends ..).later (widen later)
  | error stop later =>
    rw [bind_of_error hp, bind_of_error hq]
    exact .error stop (widen later)

theorem bind (h : Agrees own ps O m d Q q p)
    (hk : ∀ {P m' d' a}, Later own ps O m P m' d' → Q P a → Agrees own ps P m' d' R (l a) (k a)) :
    Agrees own ps O m d R (q >>= l) (p >>= k) := h.bindOf id hk

/-- What comes first leaves all environments with the names that they have. -/
theorem andThen (h : Agrees none ps O m d Q q p)
    (hk : ∀ {P m' d' a}, Later none ps O m P m' d' → Q P a → Agrees own ps P m' d' R (l a) (k a)) :
    Agrees own ps O m d R (q >>= l) (p >>= k) := h.bindOf Later.weaken hk

theorem imp {R : Outline → α → Prop} (h : Agrees own ps O m d Q q p)
    (hr : ∀ {P m' d' a}, Later own ps O m P m' d' → Q P a → R P a) : Agrees own ps O m d R q p := by
  rw [Agrees] at h ⊢
  generalize p m = r, q (d.over m) = t at h
  cases h with
  | ok later h => exact .ok later (hr later h)
  | error stop later => exact .error stop later

theorem weaken (h : Agrees none ps O m d Q q p) : Agrees own ps O m d Q q p := by
  rw [Agrees] at h ⊢
  generalize p m = r, q (d.over m) = t at h
  cases h with
  | ok later h => exact .ok later.weaken h
  | error stop later => exact .error stop later.weaken

theorem map (h : Agrees own ps O m d Q q p) {f : α → β} (hf : ∀ {P a}, Q P a → R P (f a)) :
    Agrees own ps O m d R (f <$> q) (f <$> p) := h.bind fun later hq => pure later.sees (hf hq)

/-- Both look at what they run in. -/
theorem get {k : Lox.Machine RefId → Lox.Run RefId α} {l : Machine → Run α}
    (h : Agrees own ps O m d Q (l (d.over m)) (k m)) :
    Agrees own ps O m d Q (MonadState.get >>= l) (MonadState.get >>= k) := h

theorem current {k : Lox.Machine RefId → Lox.Run RefId α} {l : EnvId → Run α}
    (h : Agrees own ps O m d Q (l m.scope) (k m)) :
    Agrees own ps O m d Q (currentScope >>= l) (MonadState.get >>= k) := h

theorem onLine (h : Agrees own ps O m d Q q p) (line : Nat) :
    Agrees own ps O m d Q (onLine line q) (Run.onLine line p) := by
  rw [Agrees] at h ⊢
  simp only [Run.onLine, Marked.onLine]
  generalize p m = r, q (d.over m) = t at h
  cases h with
  | ok later h => exact .ok later h
  | error stop later =>
    cases stop with
    | error e => exact .error _ later
    | outOfFuel => exact .error _ later

theorem inScope (h : Agrees own ps O { m with scope := e } d Q q p) :
    Agrees own ps O m d Q (inScope e q) (Run.inScope e p) := by
  change Ends own ps O { m with scope := e } Q _ (q { d.over m with machine := { (d.over m).machine with scope := e } }) at h
  rw [Agrees]
  simp only [Run.inScope, Marked.inScope]
  generalize p { m with scope := e } = r,
    q { d.over m with machine := { (d.over m).machine with scope := e } } = t at h
  cases h with
  | @ok a P m' d' later h =>
    have back : Later own ps O m P { m' with scope := m.scope } d' :=
      ⟨later.grows, later.sees.around m.scope m'.host, rfl, later.kept⟩
    exact .ok back h
  | @error P m' d' stop later =>
    have back : Later own ps O m P { m' with scope := m.scope } d' :=
      ⟨later.grows, later.sees.around m.scope m'.host, rfl, later.kept⟩
    exact .error stop back

end Agrees

namespace Outline

/-- The environment has the names of the innermost scope and no others. -/
def Exact (O : Outline) (e : EnvId) : Names → Prop
  | [] => True
  | names :: _ => ∃ x, O[e]? = some x ∧ x.names = names

end Outline

/-- What is to be seen from a place between statements. Only there the next declaration gets the slot
that scoping has counted. -/
structure Seen (O : Outline) (Γ : Names) (Δ : Marks) (e : EnvId) : Prop where
  chain : O.Chain Γ Δ e
  exact : O.Exact e Γ

variable {Γ : Names} {Δ : Marks}

theorem Later.seen (h : Later none ps O m P m' d') (hs : Seen O Γ Δ e) : Seen P Γ Δ e := by
  refine ⟨hs.chain.extend h.grows, ?_⟩
  cases Γ with
  | nil => trivial
  | cons names Γ =>
    obtain ⟨x, hx, hn⟩ := hs.exact
    exact ⟨x, h.kept (fun he => nomatch he) hx, hn⟩

theorem seen_top : Seen O [] [] .global := ⟨.top, trivial⟩

theorem seen_nested (chain : O.Chain Γ Δ e) (marks : List String) :
    Seen (O.nested e marks) ([] :: Γ) (marks :: Δ) O.length := by
  have inner : (O.nested e marks)[O.length]? = some ⟨some e, [], marks⟩ := by
    rw [Outline.nested_get, if_pos rfl]
  exact ⟨.inner inner List.nil_prefix (chain.extend (O.extends_nested e marks)), _, inner, rfl⟩

theorem Seen.declared (seen : Seen O Γ Δ e) {name : String} (fresh : Γ.Fresh name) :
    Seen (O.declared e name) (Γ.declare name) Δ e := by
  have grows := O.extends_declared e name
  obtain ⟨chain, exact⟩ := seen
  cases chain with
  | top => exact seen_top
  | @inner names all Γ marks Δ _ up he hn chain =>
    obtain ⟨x, hx, rfl⟩ := exact
    obtain rfl : x = ⟨some up, all, marks⟩ := Option.some.inj (hx.symm.trans he)
    have new : name ∉ all := fresh
    have entry : (O.declared e name)[e]? = some ⟨some up, all ++ [name], marks⟩ := by
      rw [Outline.declared, List.getElem?_modify, he]
      simp [new]
    rw [Names.declare_cons_of_fresh new]
    exact ⟨.inner entry (List.prefix_refl _) (chain.extend grows), _, entry, rfl⟩

/-! New environments. -/

section Nested

variable {Q : Outline → α → Prop} {l : EnvId → Run α} {k : EnvId → Lox.Run RefId α}

theorem Agrees.nested {marks : List String} {listed : List (EnvId × List String)}
    (hs : Sees ps O m d)
    (hm : ∀ i, (listed.lookup i).getD [] = if i = O.length then marks else (d.over m).marksOf i)
    {q : Run EnvId}
    (hq : q (d.over m) = .ok O.length
      (Shade.over ⟨d.environments.nest e, listed⟩ { m with environments := m.environments.nest e }))
    (h : Sees ps (O.nested e marks) { m with environments := m.environments.nest e }
        ⟨d.environments.nest e, listed⟩ →
      Agrees (some O.length) ps (O.nested e marks) { m with environments := m.environments.nest e }
        ⟨d.environments.nest e, listed⟩ Q (l O.length) (k O.length)) :
    Agrees none ps O m d Q (q >>= l) (Run.nestIn e >>= k) := by
  have fresh : m.environments.fresh = O.length := hs.length
  have hp : Run.nestIn e m = .ok O.length { m with environments := m.environments.nest e } :=
    fresh ▸ rfl
  -- the new environment is none of those that there were
  have later {P : Outline} {m' : Lox.Machine RefId} {d' : Shade}
      (h : Later (some O.length) ps (O.nested e marks)
        { m with environments := m.environments.nest e } P m' d') : Later none ps O m P m' d' := by
    refine ⟨(O.extends_nested e marks).trans h.grows, h.sees, h.scope, fun {i x} _ hx => ?_⟩
    refine h.kept ?_ (Outline.nested_of_some hx)
    rintro ⟨rfl⟩
    rw [List.getElem?_eq_none (Nat.le_refl _)] at hx
    cases hx
  have agrees := h (hs.nest e hm)
  rw [Agrees] at agrees ⊢
  rw [bind_of_ok hp, bind_of_ok hq]
  generalize k O.length { m with environments := m.environments.nest e } = r,
    l O.length (Shade.over ⟨d.environments.nest e, listed⟩
      { m with environments := m.environments.nest e }) = t at agrees
  cases agrees with
  | ok after h => exact .ok (later after) h
  | error stop after => exact .error stop (later after)

theorem fresh_shade (hs : Sees ps O m d) : d.environments.fresh = O.length :=
  (Environments.fresh_of_outline hs.same).trans hs.length

/-- An environment without marks. -/
theorem Agrees.nestLift (hs : Sees ps O m d) (e : EnvId)
    (h : Sees ps (O.nested e []) { m with environments := m.environments.nest e }
        ⟨d.environments.nest e, d.marks⟩ →
      Agrees (some O.length) ps (O.nested e []) { m with environments := m.environments.nest e }
        ⟨d.environments.nest e, d.marks⟩ Q (l O.length) (k O.length)) :
    Agrees none ps O m d Q (lift (Run.nestIn e) >>= l) (Run.nestIn e >>= k) := by
  refine .nested hs (fun i => ?_) (fresh_shade hs ▸ rfl) h
  split
  · rename_i hi
    refine (hs.marks i).trans ?_
    rw [hi, Outline.marksAt, List.getElem?_eq_none (Nat.le_refl _)]
    rfl
  · rfl

/-- An environment for a routine. -/
theorem Agrees.nestIn (hs : Sees ps O m d) (e : EnvId) (r : Routine RefId)
    (h : Sees ps (O.nested e r.ownScope.unread) { m with environments := m.environments.nest e }
        ⟨d.environments.nest e, (O.length, r.ownScope.unread) :: d.marks⟩ →
      Agrees (some O.length) ps (O.nested e r.ownScope.unread)
        { m with environments := m.environments.nest e }
        ⟨d.environments.nest e, (O.length, r.ownScope.unread) :: d.marks⟩ Q (l O.length) (k O.length)) :
    Agrees none ps O m d Q (nestIn e r >>= l) (Run.nestIn e >>= k) := by
  refine .nested hs (fun i => ?_) (fresh_shade hs ▸ rfl) h
  rw [List.lookup_cons]
  by_cases hi : i = O.length
  · rw [if_pos hi, hi, beq_self_eq_true]
    rfl
  · rw [if_neg hi, beq_eq_false_iff_ne.mpr hi]
    rfl

end Nested

/-! Declarations and assignments. -/

theorem define_agrees (hs : Sees ps O m d) {name : String} {v v' : Option (Value RefId EnvId)}
    (hv : Entry ps (O.declared e name) (O.marksAt e) (name, v) (name, v')) :
    Agrees (some e) ps O m d (fun P _ => P = O.declared e name) (lift (Run.define e name v'))
      (Run.define e name v) := by
  refine .step rfl rfl ⟨O.extends_declared e name, hs.define hv, rfl, fun {i x} hi hx => ?_⟩ rfl
  have other : e ≠ i := fun h => hi (h ▸ rfl)
  rw [Outline.declared, List.getElem?_modify, hx]
  simp [other]

theorem entry_storedFor (hs : Sees ps O m d) (i : Interference) (e : EnvId) (name : String)
    {v : Option (Value RefId EnvId)} (hv : ∀ w, v = some w → P.Good ps w) :
    Entry ps P (O.marksAt e) (name, v) (name, v.map ((d.over m).storedFor i e name)) := by
  refine ⟨rfl, fun hn => ⟨?_, hv⟩⟩
  rw [← hs.marks] at hn
  cases v with
  | none => rfl
  | some v => exact congrArg some (if_neg hn)

/-- The value may be about the environment as it is behind the declaration. -/
theorem defineStored_agrees (hs : Sees ps O m d) (i : Interference) (e : EnvId) (name : String)
    {v : Option (Value RefId EnvId)} (hv : ∀ w, v = some w → (O.declared e name).Good ps w) :
    Agrees (some e) ps O m d (fun P _ => P = O.declared e name) (define i e name v)
      (Run.define e name v) :=
  define_agrees hs (entry_storedFor hs i e name hv)

theorem put_agrees (hs : Sees ps O m d) (i : Interference) (e : EnvId) (slot : Nat)
    {v : Value RefId EnvId} (hv : O.Good ps v) :
    Agrees own ps O m d (fun _ _ => True) (put i e slot v) (Run.put e slot v) := by
  refine .step rfl rfl (.same (hs.put fun x name hx hn => ?_) rfl) trivial
  rw [hs.nameAt?, hx, Option.bind_some, hn, ← Outline.marksAt_eq hx]
  exact entry_storedFor hs i e name fun w hw => Option.some.inj hw ▸ hv

theorem declare_agrees (hs : Sees ps O m d) (seen : Seen O Γ Δ m.scope) {name : String}
    (fresh : Γ.Fresh name) :
    Agrees (some m.scope) ps O m d (fun P _ => Seen P (Γ.declare name) Δ m.scope)
      (lift (Run.declare name)) (Run.declare name) := by
  have unassigned : Entry ps (O.declared m.scope name) (O.marksAt m.scope) (name, none) (name, none) :=
    ⟨rfl, fun _ => ⟨rfl, nofun⟩⟩
  have answer : lift (Run.declare name) (d.over m) =
      .ok (d.environments.slotFor m.scope name)
        (Shade.over ⟨d.environments.define m.scope name none, d.marks⟩
          { m with environments := m.environments.define m.scope name none }) := rfl
  rw [Environments.slotFor_of_outline hs.same] at answer
  refine .step rfl answer ⟨O.extends_declared _ name, hs.define unassigned, rfl, fun {i x} hi hx => ?_⟩
    (seen.declared fresh)
  have other : m.scope ≠ i := fun h => hi (h ▸ rfl)
  rw [Outline.declared, List.getElem?_modify, hx]
  simp [other]

/-! Variables. -/

theorem Sees.place? (hs : Sees ps O m d) (site : Option Binding) (name : String) :
    (d.over m).machine.place? site name = m.place? site name := by
  cases site with
  | none => exact congrArg (Option.map _) (Environments.slot?_of_outline hs.same _ name)
  | some b =>
    change (d.environments.ancestor? m.scope b.distance).bind _ = _
    rw [Environments.ancestor?_of_outline hs.same]
    simp only [Machine.place?, Shade.over, Environments.hasSlot_of_outline hs.same]

theorem assign_agrees (hs : Sees ps O m d) (i : Interference) (site : Option Binding) (name : Lexeme)
    {v : Value RefId EnvId} (hv : O.Good ps v) :
    Agrees own ps O m d (fun _ _ => True) (assign i site name v) (Run.assign site name v) := by
  refine Agrees.get ?_
  rw [hs.place?]
  rcases m.place? site name.text with _ | ⟨e, slot⟩
  · exact .raise hs _ _
  · exact put_agrees hs i e slot hv

theorem spare_run (hs : Sees ps O m d) (i : Interference) {slot : Nat} (spares : O.Spares e slot) :
    spare i e slot (d.over m) = .ok () (d.over m) := by
  have free := (hs.unmarked spares).1
  change (if (d.over m).isMarked e slot then throw i.stop else Pure.pure () : Run Unit) (d.over m) = _
  rw [free]
  rfl

/-- Where scoping finds a name there is an unmarked variable, unless it found one that is never read. -/
theorem Sees.binding (hs : Sees ps O m d) (chain : O.Chain Γ Δ m.scope) {name : String} {b : Binding}
    (hb : Γ.binding? name = some b) (spares : Δ.Spares Γ name) :
    ∃ e, m.environments.ancestor? m.scope b.distance = some e ∧ O.Spares e b.slot ∧
      m.place? (some b) name = some (e, b.slot) := by
  obtain ⟨e, x, ancestor, hx, hn, marks⟩ := chain.finds hs.outline hb
  refine ⟨e, ancestor, ?_, ?_⟩
  · intro y name' hy hn'
    obtain rfl : x = y := Option.some.inj (hx.symm.trans hy)
    obtain rfl : name = name' := Option.some.inj (hn.symm.trans hn')
    exact marks ▸ spares b hb
  · obtain ⟨env, -, he, -, names, -⟩ := hs.environment hx
    have there : b.slot < env.entries.length := by
      rw [← names] at hn
      have there := (List.getElem?_eq_some_iff.mp hn).1
      rwa [Environment.names, List.length_map] at there
    rw [Machine.place?, ancestor, Option.bind_some, Environments.hasSlot, he]
    simp [Environment.hasSlot, there]

theorem Sees.outside (hs : Sees ps O m d) (chain : O.Chain Γ Δ .global) : Γ = [] ∧ Δ = [] := by
  obtain ⟨names, globals⟩ := hs.globals
  cases chain with
  | top => exact ⟨rfl, rfl⟩
  | inner he _ _ =>
    rw [globals] at he
    cases he

theorem Sees.spares_global (hs : Sees ps O m d) (slot : Nat) : O.Spares .global slot := by
  obtain ⟨names, globals⟩ := hs.globals
  exact Outline.spares_of_free (Outline.marksAt_eq globals) slot

/-- What is known of the variable that a reference leads to. -/
def known (m : Lox.Machine RefId) (site : Option Binding) (name : String) :
    Lookup (Value RefId EnvId) :=
  match m.place? site name with
  | none => .missing
  | some (e, slot) => m.environments.getSlot e slot

/-- What a look-up answers. -/
def answer (name : Lexeme) : Lookup (Value RefId EnvId) → Lox.Run RefId (Value RefId EnvId)
  | .found v => return v
  | .unassigned => Run.raise (.uninitializedVariable name.text) name.line
  | .missing => Run.raise (.undefinedVariable name.text) name.line

theorem read_run (m : Lox.Machine RefId) (site : Option Binding) (name : Lexeme) :
    Run.read site name m = answer name (known m site name.text) m := by
  change (match m.place? site name.text with | none => _ | some (e, slot) => _ : Lox.Run RefId _) m = _
  rw [known]
  rcases m.place? site name.text with _ | ⟨e, slot⟩
  · rfl
  · dsimp only
    cases m.environments.getSlot e slot <;> rfl

theorem read_agrees (hs : Sees ps O m d) (i : Interference) (chain : O.Chain Γ Δ m.scope)
    {name : Lexeme} (spares : Δ.Spares Γ name.text) :
    Agrees own ps O m d (fun P => P.Good ps) (read i (Γ.binding? name.text) name)
      (Run.read (Γ.binding? name.text) name) := by
  generalize hb : Γ.binding? name.text = site
  have placed {e : EnvId} {slot : Nat} (hp : m.place? site name.text = some (e, slot)) :
      O.Spares e slot := by
    cases site with
    | some b =>
      obtain ⟨e, -, spares, place⟩ := hs.binding chain hb spares
      obtain ⟨rfl, rfl⟩ := Prod.mk.inj (Option.some.inj (place.symm.trans hp))
      exact spares
    | none =>
      obtain ⟨slot, -, h⟩ := Option.map_eq_some_iff.mp hp
      cases h
      exact hs.spares_global slot
  have spared : read i site name (d.over m) = lift (Run.read site name) (d.over m) := by
    rw [Marked.read, get_bind_run, hs.place?]
    cases hp : m.place? site name.text with
    | none => rfl
    | some x => exact bind_of_ok (spare_run hs i (placed hp))
  have same : known (d.over m).machine site name.text = known m site name.text ∧
      ∀ v, known m site name.text = .found v → O.Good ps v := by
    rw [known, known, hs.place?]
    rcases hp : m.place? site name.text with _ | ⟨e, slot⟩
    · exact ⟨rfl, fun _ hv => by cases hv⟩
    · exact (hs.unmarked (placed hp)).2
  obtain ⟨same, good⟩ := same
  refine .congr rfl spared ?_
  refine .lifted (p := answer name (known m site name.text)) (read_run ..) ?_ ?_
  · rw [read_run, same]
  · cases hk : known m site name.text with
    | found v => exact .pure hs (good v hk)
    | missing | unassigned => exact .raise hs _ _

end Marked

end Lox
