import Lox.Proofs.Receivers.Dispatch
import Lox.Proofs.Receivers.Session

/-!
Methods above. What `super` leads to is settled where it stands: the search for the method starts at the
class that the clause of the enclosing class led to when that class was made. The receiver is that of the
method that runs, of whatever class it is.
-/

namespace Lox

open Run Scoping

/-! The declaration of a class. -/

namespace Environments

variable {α : Type} {s t : Environments α} {e : EnvId}

/-- What is put into the slot that a declaration has taken is found under the name. -/
theorem get_put_slotFor (he : e < s.all.size) {name : String}
    (kept : t.all[e]? = (s.define e name none).all[e]?) (a : α) :
    (t.put e (s.slotFor e name) a).get e name = .found a := by
  rw [all_define, if_pos rfl, Array.getElem?_eq_getElem he] at kept
  rw [get, all_put, if_pos rfl, kept, slotFor_eq he]
  exact Environment.get_putSlot (Environment.slot?_define _ name none) (some a)

end Environments

/-- The environment for the class above is new. -/
theorem methodScope_surrounds (parent : Option (Class RefId EnvId)) (m : Machine RefId) :
    ∃ scope environments, methodScope parent m = .ok scope { m with environments } ∧
      (∀ e < m.environments.all.size, environments.all[e]? = m.environments.all[e]?) ∧
      ∀ e < m.environments.all.size, ∀ slot v,
        Machine.Surrounds { m with environments := environments.put e slot v } parent scope m.scope := by
  cases parent with
  | none => exact ⟨m.scope, m.environments, rfl, fun _ _ => rfl, fun _ _ _ _ => rfl⟩
  | some k =>
    refine ⟨m.environments.fresh,
      ⟨m.environments.all.push ⟨[("super", some (.class k))], some m.scope⟩⟩, ?_, fun e he => ?_,
      fun e he slot v => ?_⟩
    · rw [← Environments.define_nest]
      rfl
    · exact (Array.getElem?_push_lt he).trans (Array.getElem?_eq_getElem he).symm
    · have other : e ≠ m.environments.fresh := Nat.ne_of_lt he
      refine Eq.trans (Environments.all_put _ e m.environments.fresh slot v) ?_
      rw [if_neg other]
      exact Array.getElem?_push_size

/-- A declaration that ends has made a class with the class above that its clause leads to. -/
theorem defineClass_makes {site : RefId → Option Binding} {m m' : Machine RefId} {name : Lexeme}
    {superclass : Option (RefId × Lexeme)} {ms cs : List (Definition RefId)}
    (inside : m.scope < m.environments.all.size)
    (h : defineClass site name superclass ms cs m = .ok () m') :
    ∃ parent scope, readSuperclass site superclass m = .ok parent m ∧
      m'.Surrounds parent scope m.scope ∧ m'.environments.get m.scope name.text =
        .found (.class (Stmt.makes name ms cs scope m.objects.size parent)) := by
  obtain ⟨parent, m₁, read, h₁⟩ := bind_ok h
  obtain rfl := readSuperclass_ok read
  obtain ⟨slot, m₂, declared, h₂⟩ := bind_ok h₁
  cases declared
  have size : (m₁.environments.define m₁.scope name.text none).all.size = m₁.environments.all.size :=
    m₁.environments.size_modify m₁.scope _
  obtain ⟨scope, environments, ran, kept, surrounds⟩ := methodScope_surrounds parent
    { m₁ with environments := m₁.environments.define m₁.scope name.text none }
  obtain ⟨scope', m₃, ran', h₃⟩ := bind_ok h₂
  cases ran.symm.trans ran'
  cases h₃
  have there := size.symm ▸ inside
  exact ⟨parent, scope, read, surrounds m₁.scope there _ _,
    Environments.get_put_slotFor inside (kept m₁.scope there) _⟩

namespace History

/-- The class value is of this declaration, and has this class above it: the one that the clause led to
right before the class value was made. -/
structure Declares (h : History) (m : Machine RefId) (name : Lexeme) (clause : RefId × Lexeme)
    (ms cs : List (Definition RefId)) (c k : Class RefId EnvId) : Prop where
  stands : ∃ p ∈ h.programs, ∃ context Γ, Stands p context Γ (.stmt (.class name (some clause) ms cs))
  superclass : c.superclass = some k
  made : ∃ scope before, c = Stmt.makes name ms cs scope before.objects.size (some k) ∧
    Run.read (h.session.bindings.find? clause.1) clause.2 before = .ok (.class k) before ∧
      before.Grows m

/-- What is expected of classes. A declaration makes a class value with the class above that its clause
leads to at that time. And `super` stands in a method of such a class value, looks for a method from
the class above it, and binds it to the receiver that `this` is there. -/
def staticSuper (h : History) : Watch RefId where
  stmt a m := match a with
    | .class name superclass ms cs => ∀ fuel outcome m',
      exec h.session.bindings.find? fuel a m = .ok outcome m' →
        ∃ parent scope, readSuperclass h.session.bindings.find? superclass m = .ok parent m ∧
          m'.Surrounds parent scope m.scope ∧ m'.environments.get m.scope name.text =
            .found (.class (Stmt.makes name ms cs scope m.objects.size parent))
    | _ => True
  access e m := match e with
    | .super id keyword method => ∃ name clause ms cs c k found r f kind,
      h.Declares m name clause ms cs c k ∧ (f ∈ c.methods ∨ f ∈ c.classMethods) ∧
        (Phrase.routine kind f.closure.routine).Encloses (.expr e) ∧
        r.Offers c f ∧ m.This m.scope found r ∧
        k.Dispatches r method m (getSuper (h.session.bindings.find? id) keyword method m)
    | _ => True

variable {h : History}

/-- The class of a method that has a class above comes from a declaration with a clause. -/
theorem Settled.declares (hs : h.Settled) {m : Machine RefId} {c k : Class RefId EnvId}
    (formed : m.Formed h.programs c) (superclass : c.superclass = some k) :
    ∃ name clause ms cs, h.Declares m name clause ms cs c k := by
  cases formed with
  | base => cases superclass
  | @derived p context Γ name clause ms cs scope parent before member stands clausal grown =>
    cases superclass
    have bound := hs.bound p member _ (stands.inherits (hs.faultless p member)).2.2
    exact ⟨name, clause, ms, cs, ⟨p, member, context, Γ, stands⟩, rfl, scope, before, rfl,
      (congrArg (Run.read · clause.2 before) bound).trans clausal, grown⟩

theorem Settled.staticSuper_met (hs : h.Settled) : hs.setting.Met fun _ => h.staticSuper where
  stmt {p c Γ m n a} hb stands grows := by
    cases a with
    | «class» name superclass ms cs =>
      intro fuel outcome m' ran
      obtain ⟨link, env, he, _⟩ := hb.plain
      cases fuel with
      | zero => cases ran
      | succ fuel =>
        obtain ⟨_, m₁, defined, ran⟩ := bind_ok ran
        cases ran
        exact defineClass_makes (Array.getElem?_eq_some_iff.mp he).1 defined
    | _ => trivial
  expr _ _ _ := trivial
  access {p c Γ m n e} hb stands grows := by
    cases e with
    | super id keyword method =>
      obtain ⟨b, found, r, c, k, f, site, super⟩ := hb.super stands
      obtain ⟨name, clause, ms, cs, declares⟩ := hs.declares super.formed super.superclass
      obtain ⟨kind, inside⟩ := super.inside
      have offers := super.binds.offers
      refine ⟨name, clause, ms, cs, c, k, found, r, f, kind, declares, offers.mem, inside, offers,
        super.this, ?_⟩
      have site : h.session.bindings.find? id = some b := site
      rw [site, super.getSuper_eq]
      exact bindMethod_dispatches k r method m
    | _ => trivial
  body _ _ _ := trivial
  top _ _ := trivial

/-- In every run of an accepted program, whatever the steps before and however much fuel it has:
wherever `super` is evaluated, the method is looked for from the class above the one whose method the
code is in, which is the class that the clause led to when that one was made; among methods if `this` is
an instance there, and among class methods if it is a class. It gets the same receiver. Where no class
has it, the property is undefined, and nothing else goes wrong. -/
theorem super_dispatches_statically (hr : h.Reachable) {p : Program} (hp : p ∈ h.programs)
    (stop : Stop) (fuel : Nat) :
    h.staticSuper.interpret stop h.session.bindings.find? fuel p h.session.machine =
      interpret h.session.bindings.find? fuel p h.session.machine :=
  hr.observed hr.settled.staticSuper_met hp stop fuel []

/-- The same in a function in a method, with a receiver of a class further down, after the variable of
the class above has got another value. -/
theorem super_dispatches_statically_in_function :
    ∃ h p m v, h = ((start {} .warning).perform (.compile
        "class A { m() { print true; } } class B < A { m() { fun f() { super.m(); } f(); } }
         class C < B { m() { super.m(); print false; } } A = nil; B = nil; C().m();")).2 ∧
      h.Reachable ∧ h.programs = [p] ∧
      interpret h.session.bindings.find? 30 p h.session.machine = .ok v m ∧
      m.host.console.output.toList = Text.Utf8.encode "true\nfalse\n" ∧
      ∀ stop fuel, h.staticSuper.interpret stop h.session.bindings.find? fuel p h.session.machine =
        interpret h.session.bindings.find? fuel p h.session.machine := by
  obtain ⟨h, hh⟩ : ∃ h, h = ((start {} .warning).perform (.compile
    "class A { m() { print true; } } class B < A { m() { fun f() { super.m(); } f(); } }
         class C < B { m() { super.m(); print false; } } A = nil; B = nil; C().m();")).2 := ⟨_, rfl⟩
  have hr : h.Reachable := hh ▸ (reachable_start {} .warning).perform _
  have ⟨accepted, printed⟩ :
      h.programs.length = 1 ∧ h.printed? 30 = some (Text.Utf8.encode "true\nfalse\n") := by
    rw [hh]
    decide +kernel
  obtain ⟨p, v, m, hp, ran, output⟩ := exists_of_printed? printed accepted
  exact ⟨h, p, m, v, hh, hr, hp, ran, output,
    super_dispatches_statically hr (hp ▸ List.mem_singleton_self p)⟩

end History

end Lox
