import Lox.Proofs.Marked.Agreement

/-!
Objects and calls. A receiver is in an environment without marks. The environment of a call has the
marks of its routine, and in the routine nothing is read under them, so if statements agree, calls do.
-/

namespace Lox

open Scoping

namespace Marked

variable {α : Type} {own : Option EnvId} {ps : List Program} {O P : Outline}
  {m : Lox.Machine RefId} {d : Shade} {e : EnvId} {Γ : Names} {Δ : Marks}

/-! Objects and the surroundings. -/

theorem newObject_agrees (hs : Sees ps O m d) :
    Agrees own ps O m d (fun _ _ => True) newObject Run.newObject :=
  .step rfl rfl (.same hs.newObject rfl) trivial

theorem setField_agrees (hs : Sees ps O m d) (id : ObjectId) (name : String) {v : Value RefId EnvId}
    (hv : O.Good ps v) :
    Agrees own ps O m d (fun _ _ => True) (lift (Run.setField id name v)) (Run.setField id name v) :=
  .step rfl rfl (.same (hs.setField id name hv) rfl) trivial

theorem write_agrees (hs : Sees ps O m d) (text : String) :
    Agrees own ps O m d (fun _ _ => True) (lift (Run.write text)) (Run.write text) := by
  obtain ⟨environments, scope, objects, ⟨console, files, clock, explored⟩⟩ := m
  obtain ⟨written, after, hw⟩ : ∃ written after, console.write (Text.Utf8.encode text) =
    (written, after) := ⟨_, _, rfl⟩
  have later := hs.around scope ⟨after, files, clock, explored⟩
  cases written with
  | true =>
    have run (environments : Environments (Value RefId EnvId)) :
        Run.write text ⟨environments, scope, objects, ⟨console, files, clock, explored⟩⟩ =
          .ok () ⟨environments, scope, objects, ⟨after, files, clock, explored⟩⟩ := by
      simp only [Run.write, hw]
    exact .step (run environments) (by simp only [lift, Shade.over, run]) (.same later rfl) trivial
  | false =>
    have run (environments : Environments (Value RefId EnvId)) :
        Run.write text ⟨environments, scope, objects, ⟨console, files, clock, explored⟩⟩ =
          .error (.error ⟨.output .outputFull, none⟩)
            ⟨environments, scope, objects, ⟨after, files, clock, explored⟩⟩ := by
      simp only [Run.write, hw]
    exact .fail (run environments) (by simp only [lift, Shade.over, run]) (.same later rfl)

theorem flush_agrees (hs : Sees ps O m d) :
    Agrees own ps O m d (fun _ _ => True) (lift Run.flush) Run.flush := by
  refine .lifted (p := if m.host.console.flushFails then throw (.error ⟨.output .flushFailed, none⟩)
    else Pure.pure ()) rfl rfl ?_
  split
  · exact .throw hs _
  · exact .pure hs trivial

theorem native_agrees (hs : Sees ps O m d) (n : Native) {vs : List (Value RefId EnvId)}
    (h : vs.length = n.arity) :
    Agrees own ps O m d (fun P => P.Good ps) (lift (Run.native n vs h)) (Run.native n vs h) := by
  obtain ⟨environments, scope, objects, host⟩ := m
  obtain ⟨w, hw, -⟩ := n.run_alike rfl h h
  cases hr : w host with
  | ok v after =>
    have run (environments : Environments (Value RefId EnvId)) :
        Run.native n vs h ⟨environments, scope, objects, host⟩ =
          .ok v.ofBare ⟨environments, scope, objects, after⟩ := by
      simp only [Run.native, hw, Functor.map, EStateM.map, hr]
    exact .step (run environments) (by simp only [lift, Shade.over, run])
      (.same (hs.around scope after) rfl) (Outline.good_ofBare v)
  | error fault after =>
    have run (environments : Environments (Value RefId EnvId)) :
        Run.native n vs h ⟨environments, scope, objects, host⟩ =
          .error (.error ⟨.native n fault, none⟩) ⟨environments, scope, objects, after⟩ := by
      simp only [Run.native, hw, Functor.map, EStateM.map, hr]
    exact .fail (run environments) (by simp only [lift, Shade.over, run])
      (.same (hs.around scope after) rfl)

theorem ofExcept_agrees (hs : Sees ps O m d) {x : Except RuntimeError (Value RefId EnvId)}
    (h : ∀ v, x = .ok v → O.Good ps v) :
    Agrees own ps O m d (fun P => P.Good ps) (lift (Run.ofExcept x)) (Run.ofExcept x) := by
  cases x with
  | ok v => exact .pure hs (h v rfl)
  | error e => exact .throw hs _

/-! Methods. -/

theorem bind_agrees (hs : Sees ps O m d) {f : Function RefId EnvId} (hf : O.Method ps f)
    {v : Value RefId EnvId} (hv : O.Good ps v) :
    Agrees none ps O m d (fun P g => Stems ps P.Chain g.initializer g.closure ∧ g.arity = f.arity)
      (lift (f.bind v)) (f.bind v) := by
  obtain ⟨p, hp, c, s, kind, _, ⟨Γ, Δ, names, rfl, chain⟩, cleared, initializer⟩ := hf
  unfold Function.bind
  rw [lift_bind]
  refine .nestLift hs f.closure.scope fun sees => ?_
  rw [lift_bind]
  have grows := (O.extends_nested f.closure.scope []).trans
    (Outline.extends_declared O.length "this")
  have receiver : Entry ps ((O.nested f.closure.scope []).declared O.length "this")
      ((O.nested f.closure.scope []).marksAt O.length) ("this", some v) ("this", some v) :=
    ⟨rfl, fun _ => ⟨rfl, fun w hw => Option.some.inj hw ▸ hv.later grows⟩⟩
  refine (define_agrees sees receiver).bind fun later equal => .pure later.sees ?_
  have seen : Seen _ (["this"] :: Γ) ([] :: Δ) O.length :=
    (seen_nested chain []).declared List.not_mem_nil
  exact ⟨⟨p, hp, c, s, kind, _, equal ▸ names ▸ seen.chain, cleared, initializer⟩, rfl⟩

theorem bindMethod_agrees (hs : Sees ps O m d) {f : Option (Function RefId EnvId)}
    (hf : ∀ g, f = some g → O.Method ps g) {v : Value RefId EnvId} (hv : O.Good ps v)
    (name : Lexeme) :
    Agrees none ps O m d (fun P => P.Good ps) (lift (bindMethod f v name)) (bindMethod f v name) := by
  cases f with
  | none => exact .raise hs _ _
  | some f =>
    unfold bindMethod
    rw [lift_bind]
    refine (bind_agrees hs (hf f rfl) hv).bind fun later ⟨hg, _⟩ => ?_
    rw [lift_bind]
    exact (newObject_agrees later.sees).bind fun after _ =>
      .pure after.sees (hg.imp (List.Subset.refl ps) fun chain => chain.extend after.grows)

/-- A field, or else a method. -/
theorem fieldOr_agrees (hs : Sees ps O m d) (id : ObjectId) (name : Lexeme)
    {f : Option (Function RefId EnvId)} (hf : ∀ g, f = some g → O.Method ps g)
    {v : Value RefId EnvId} (hv : O.Good ps v) {p : Lox.Run RefId (Value RefId EnvId)}
    (field : ∀ {m : Lox.Machine RefId} {w}, m.field? id name.text = some w → p m = .ok w m)
    (method : ∀ {m : Lox.Machine RefId}, m.field? id name.text = none → p m = bindMethod f v name m) :
    Agrees none ps O m d (fun P => P.Good ps) (lift p) p := by
  have same : (d.over m).machine.field? id name.text = m.field? id name.text := rfl
  cases hl : m.field? id name.text with
  | some w => exact .lifted (p := Pure.pure w) (field hl) (field (same.trans hl)) (.pure hs (hs.field? hl))
  | none => exact .lifted (method hl) (method (same.trans hl)) (bindMethod_agrees hs hf hv name)

theorem getProperty_agrees (hs : Sees ps O m d) {v : Value RefId EnvId} (hv : O.Good ps v)
    (name : Lexeme) :
    Agrees none ps O m d (fun P => P.Good ps) (lift (v.getProperty name)) (v.getProperty name) := by
  cases v with
  | «instance» id k =>
    have hk : O.Classes ps k := hv
    refine fieldOr_agrees hs id name (fun g hg => hk.findMethod? name.text hg) hv (fun h => ?_) fun h => ?_
    · rw [Value.getProperty, get_bind_run, h]
      rfl
    · rw [Value.getProperty, get_bind_run, h]
  | «class» k =>
    have hk : O.Classes ps k := hv
    simp only [Value.getProperty]
    split
    · exact .raise hs _ _
    · refine fieldOr_agrees hs k.id name (fun g hg => hk.findClassMethod? name.text hg) hv (fun h => ?_) fun h => ?_
      · rw [get_bind_run, h]
        rfl
      · rw [get_bind_run, h]
  | _ => exact .raise hs _ _

/-- What the word answers for what is found of the class above and of the receiver. -/
def superAnswer (keyword method : Lexeme) :
    Lookup (Value RefId EnvId) → Lookup (Value RefId EnvId) → Lox.Run RefId (Value RefId EnvId)
  | .found (.class c), .found (.instance id k) =>
    bindMethod (c.findMethod? method.text) (.instance id k) method
  | .found (.class c), .found (.class k) =>
    bindMethod (c.findClassMethod? method.text) (.class k) method
  | _, _ => Run.raise (.undefinedVariable keyword.text) keyword.line

theorem getSuper_run (m : Lox.Machine RefId) (distance slot : Nat) (keyword method : Lexeme) :
    Lox.getSuper (some ⟨distance + 1, slot⟩) keyword method m =
      superAnswer keyword method (m.environments.getAt m.scope (distance + 1) slot)
        (m.environments.getAt m.scope distance 0) m := by
  rw [Lox.getSuper, get_bind_run]
  dsimp only
  generalize m.environments.getAt m.scope (distance + 1) slot = x,
    m.environments.getAt m.scope distance 0 = y
  cases x with
  | found v =>
    cases v with
    | «class» c =>
      cases y with
      | found w => cases w <;> rfl
      | _ => rfl
    | _ => rfl
  | _ => rfl

theorem superAnswer_agrees (hs : Sees ps O m d) (keyword method : Lexeme)
    {x y : Lookup (Value RefId EnvId)} (hx : ∀ v, x = .found v → O.Good ps v)
    (hy : ∀ v, y = .found v → O.Good ps v) :
    Agrees none ps O m d (fun P => P.Good ps) (lift (superAnswer keyword method x y))
      (superAnswer keyword method x y) := by
  unfold superAnswer
  split
  · rename_i c id k
    have hc : O.Classes ps c := hx _ rfl
    exact bindMethod_agrees hs (fun g hg => hc.findMethod? method.text hg) (hy _ rfl) method
  · rename_i c k
    have hc : O.Classes ps c := hx _ rfl
    exact bindMethod_agrees hs (fun g hg => hc.findClassMethod? method.text hg) (hy _ rfl) method
  · exact .raise hs _ _

theorem getSuper_agrees (hs : Sees ps O m d) (i : Interference) (chain : O.Chain Γ Δ m.scope)
    {distance : Nat} (above : Γ.binding? "super" = some ⟨distance + 1, 0⟩)
    (receiver : Γ.binding? "this" = some ⟨distance, 0⟩) (spares : Δ.Spares Γ "super")
    (spares' : Δ.Spares Γ "this") (keyword method : Lexeme) :
    Agrees none ps O m d (fun P => P.Good ps)
      (getSuper i (Γ.binding? "super") keyword method)
      (Lox.getSuper (Γ.binding? "super") keyword method) := by
  rw [above]
  have found {distance : Nat} {name : String} (hb : Γ.binding? name = some ⟨distance, 0⟩)
      (spares : Δ.Spares Γ name) : spareAt i distance 0 (d.over m) = .ok () (d.over m) ∧
        d.environments.getAt m.scope distance 0 = m.environments.getAt m.scope distance 0 ∧
        ∀ v, m.environments.getAt m.scope distance 0 = .found v → O.Good ps v := by
    obtain ⟨e, ancestor, spares, -⟩ := hs.binding chain hb spares
    have ancestor' : d.environments.ancestor? m.scope distance = some e :=
      (Environments.ancestor?_of_outline hs.same _ _).trans ancestor
    refine ⟨?_, ?_⟩
    · have there : (d.over m).machine.environments.ancestor? (d.over m).machine.scope distance =
        some e := ancestor'
      rw [spareAt, get_bind_run, there]
      exact spare_run hs i spares
    · have ancestor : m.environments.ancestor? m.scope distance = some e := ancestor
      rw [Environments.getAt, Environments.getAt, ancestor, ancestor']
      exact (hs.unmarked spares).2
  obtain ⟨first, same, good⟩ := found above spares
  obtain ⟨second, same', good'⟩ := found receiver spares'
  have spared : getSuper i (some ⟨distance + 1, 0⟩) keyword method (d.over m) =
      lift (Lox.getSuper (some ⟨distance + 1, 0⟩) keyword method) (d.over m) :=
    (bind_of_ok first).trans (bind_of_ok second)
  refine .congr rfl spared (.lifted (getSuper_run ..) ?_
    (superAnswer_agrees hs keyword method good good'))
  rw [getSuper_run]
  have same : (d.over m).machine.environments.getAt (d.over m).machine.scope _ _ = _ := same
  have same' : (d.over m).machine.environments.getAt (d.over m).machine.scope _ _ = _ := same'
  rw [same, same']

end Marked

end Lox
