import Lox.Proofs.Lexical.Agreement
import Lox.Proofs.Parser.Origin
import Lox.Proofs.Traced.Evaluator

/-!
What errors are blamed on. Each error of the evaluator but those of natives and of the output is raised
at a word of the phrase that fails, and has the line of it.
-/

namespace Lox

variable {ρ α β : Type}

/-! Which word a fault is blamed on. -/

/-- The fault of an expression is that of a word of its own, of this kind and on this line. -/
inductive Expr.Blames : Expr ρ → RuntimeFault → Token.Kind → Nat → Prop
  | undefined (ref name) :
      Blames (.variable ref name) (.undefinedVariable name.text) .identifier name.line
  | uninitialized (ref name) :
      Blames (.variable ref name) (.uninitializedVariable name.text) .identifier name.line
  | assigned (ref name e) :
      Blames (.assign ref name e) (.undefinedVariable name.text) .identifier name.line
  | thisUndefined (ref keyword) :
      Blames (.this ref keyword) (.undefinedVariable keyword.text) .this keyword.line
  | thisUninitialized (ref keyword) :
      Blames (.this ref keyword) (.uninitializedVariable keyword.text) .this keyword.line
  | super (ref keyword method) :
      Blames (.super ref keyword method) (.undefinedVariable keyword.text) .super keyword.line
  | method (ref keyword method) :
      Blames (.super ref keyword method) (.undefinedProperty method.text) .identifier method.line
  | numberOperand (sign e) : Blames (.unary .negate sign e) .numberOperand .minus sign.line
  | numberOperands (op sign l r) :
      Blames (.binary (.numeric op) sign l r) .numberOperands op.kind sign.line
  | addOperands (sign l r) : Blames (.binary .add sign l r) .addOperands .plus sign.line
  | divisionByZero (sign l r) :
      Blames (.binary (.numeric .divide) sign l r) .divisionByZero .slash sign.line
  | notCallable (c as line) : Blames (.call c as line) .notCallable .rightParen line
  | arityMismatch (c as line expected found) :
      Blames (.call c as line) (.arityMismatch expected found) .rightParen line
  | propertyOnNonInstance (o name) :
      Blames (.get o name) .propertyOnNonInstance .identifier name.line
  | initOnClass (o name) : Blames (.get o name) .initOnClass .identifier name.line
  | undefinedProperty (o name) :
      Blames (.get o name) (.undefinedProperty name.text) .identifier name.line
  | fieldOnNonInstance (o name e) :
      Blames (.set o name e) .fieldOnNonInstance .identifier name.line

/-- Of statements only classes blame a word of their own, the name of the class above. -/
inductive Stmt.Blames : Stmt ρ → RuntimeFault → Token.Kind → Nat → Prop
  | undefined (name ref above ms cs) :
      Blames (.class name (some (ref, above)) ms cs) (.undefinedVariable above.text) .identifier
        above.line
  | uninitialized (name ref above ms cs) :
      Blames (.class name (some (ref, above)) ms cs) (.uninitializedVariable above.text) .identifier
        above.line
  | superclassNotClass (name ref above ms cs) :
      Blames (.class name (some (ref, above)) ms cs) .superclassNotClass .identifier above.line

def Raiser.Blames : Raiser ρ → RuntimeFault → Token.Kind → Nat → Prop
  | .expr e => e.Blames
  | .stmt s => s.Blames
  | .ending => fun _ _ _ => False

section Tokens

variable (G : Token → Prop)

/-- A parenthesis that ends the arguments of a call is on the line. -/
def Closing (line : Nat) : Prop := ∃ t, G t ∧ t.kind = .rightParen ∧ t.line = line

/-- What raises an error. Only natives and the output do so without a word to blame. -/
inductive Origin.Explained : Origin ρ → Prop
  | token {raiser : Raiser ρ} {fault : RuntimeFault} {t : Token} (calls : List Nat) (written : G t)
      (blamed : raiser.Blames fault t.kind t.line) : Explained ⟨⟨fault, some t.line⟩, raiser, calls⟩
  | native (n : Native) (fault : Native.Fault) (callee : Expr ρ) (as : List (Expr ρ)) (line : Nat)
      (calls : List Nat) :
      Explained ⟨⟨.native n fault, none⟩, .expr (.call callee as line), line :: calls⟩
  | print (fault : Console.Fault) (e : Expr ρ) (calls : List Nat) :
      Explained ⟨⟨.output fault, none⟩, .stmt (.print e), calls⟩
  | ending (fault : Console.Fault) : Explained ⟨⟨.output fault, none⟩, .ending, []⟩

variable {G}

theorem Lexeme.From.exists {kind : Token.Kind} {l : Lexeme} (h : l.From G kind) :
    ∃ t, G t ∧ t.kind = kind ∧ t.line = l.line := by
  obtain ⟨t, written, rfl, rfl⟩ := h
  exact ⟨t, written, rfl, rfl⟩

theorem Expr.Blames.exists {e : Expr ρ} {fault : RuntimeFault} {kind : Token.Kind} {line : Nat}
    (h : e.Blames fault kind line) (made : e.MadeOf G) :
    ∃ t, G t ∧ t.kind = kind ∧ t.line = line := by
  cases h with
  | undefined | uninitialized | thisUndefined | thisUninitialized => exact made.exists
  | assigned | super | numberOperand | numberOperands | addOperands | divisionByZero
  | propertyOnNonInstance | initOnClass | undefinedProperty | fieldOnNonInstance =>
    exact made.1.exists
  | method => exact made.2.exists
  | notCallable | arityMismatch => exact made.2.2

theorem Stmt.Blames.exists {s : Stmt ρ} {fault : RuntimeFault} {kind : Token.Kind} {line : Nat}
    (h : s.Blames fault kind line) (made : s.MadeOf G) :
    ∃ t, G t ∧ t.kind = kind ∧ t.line = line := by
  cases h <;> exact (made.2.1 _ rfl).exists

end Tokens

/-! On which lines the smallest steps fail. -/

namespace Run

/-- An error of the step is one of these faults, on the line that goes with it. -/
def RaisesAt (F : RuntimeFault → Nat → Prop) (p : Run ρ α) : Prop :=
  ∀ m e m', p m = .error (.error e) m' → ∃ line, e = ⟨e.fault, some line⟩ ∧ F e.fault line

namespace RaisesAt

variable {F : RuntimeFault → Nat → Prop} {p : Run ρ α} {k : α → Run ρ β}

theorem pure (a : α) : RaisesAt F (Pure.pure a : Run ρ α) := by
  intro m e m' h
  cases h

theorem raise {fault : RuntimeFault} {line : Nat} (h : F fault line) :
    RaisesAt F (raise fault line : Run ρ α) := by
  intro m e m' he
  cases he
  exact ⟨line, rfl, h⟩

theorem bind (hp : RaisesAt F p) (hk : ∀ a, RaisesAt F (k a)) : RaisesAt F (p >>= k) := by
  intro m e m' h
  cases hm : p m with
  | ok a m₁ => exact hk a m₁ e m' ((bind_of_ok hm).symm.trans h)
  | error stop m₁ =>
    rw [bind_of_error hm] at h
    cases h
    exact hp m e m' hm

theorem get {k : Machine ρ → Run ρ α} (hk : ∀ m, RaisesAt F (k m)) :
    RaisesAt F (MonadState.get >>= k) := fun m e m' h => hk m m e m' h

theorem ofExcept {x : Except RuntimeError α}
    (h : ∀ e, x = .error e → ∃ line, e = ⟨e.fault, some line⟩ ∧ F e.fault line) :
    RaisesAt F (ofExcept x : Run ρ α) := by
  cases x with
  | ok a => exact pure a
  | error e =>
    intro m e' m' he
    cases he
    exact h e rfl

end RaisesAt

section Steps

variable {F : RuntimeFault → Nat → Prop}

theorem nestIn_raises (e : EnvId) : RaisesAt F (nestIn e : Run ρ EnvId) := by
  intro m e m' h
  cases h

theorem define_raises (e : EnvId) (name : String) (v : Option (Value ρ EnvId)) :
    RaisesAt F (define e name v) := by
  intro m e m' h
  cases h

theorem put_raises (e : EnvId) (slot : Nat) (v : Value ρ EnvId) : RaisesAt F (put e slot v) := by
  intro m e m' h
  cases h

theorem newObject_raises : RaisesAt F (newObject : Run ρ ObjectId) := by
  intro m e m' h
  cases h

theorem setField_raises (id : ObjectId) (name : String) (v : Value ρ EnvId) :
    RaisesAt F (setField id name v) := by
  intro m e m' h
  cases h

theorem declare_raises (name : String) : RaisesAt F (declare name : Run ρ Nat) := by
  intro m e m' h
  cases h

theorem nest_raises : RaisesAt F (nest : Run ρ EnvId) := by
  intro m e m' h
  cases h

theorem read_raises {name : Lexeme} (undefined : F (.undefinedVariable name.text) name.line)
    (uninitialized : F (.uninitializedVariable name.text) name.line) (b : Option Binding) :
    RaisesAt F (read b name : Run ρ (Value ρ EnvId)) := by
  refine .get fun m => ?_
  split
  · exact .raise undefined
  · split
    · exact .pure _
    · exact .raise uninitialized
    · exact .raise undefined

theorem assign_raises {name : Lexeme} (undefined : F (.undefinedVariable name.text) name.line)
    (b : Option Binding) (v : Value ρ EnvId) : RaisesAt F (assign b name v) := by
  refine .get fun m => ?_
  split
  · exact put_raises _ _ v
  · exact .raise undefined

end Steps

end Run

section Steps

open Run

variable {F : RuntimeFault → Nat → Prop}

theorem Function.bind_raises (f : Function ρ EnvId) (receiver : Value ρ EnvId) :
    RaisesAt F (f.bind receiver) := by
  intro m e m' h
  cases h

theorem bindMethod_raises {name : Lexeme} (undefined : F (.undefinedProperty name.text) name.line)
    (f : Option (Function ρ EnvId)) (receiver : Value ρ EnvId) :
    RaisesAt F (bindMethod f receiver name) := by
  cases f with
  | none => exact .raise undefined
  | some f => exact .bind (f.bind_raises receiver) fun _ => .bind newObject_raises fun _ => .pure _

theorem Value.getProperty_raises {name : Lexeme} (none : F .propertyOnNonInstance name.line)
    (init : F .initOnClass name.line) (undefined : F (.undefinedProperty name.text) name.line)
    (v : Value ρ EnvId) : RaisesAt F (v.getProperty name) := by
  cases v with
  | «instance» id c =>
    refine .get fun m => ?_
    split
    · exact .pure _
    · exact bindMethod_raises undefined _ _
  | «class» c =>
    rw [getProperty]
    split
    · exact .raise init
    · refine .get fun m => ?_
      split
      · exact .pure _
      · exact bindMethod_raises undefined _ _
  | _ => exact .raise none

theorem getSuper_raises {keyword method : Lexeme}
    (missing : F (.undefinedVariable keyword.text) keyword.line)
    (undefined : F (.undefinedProperty method.text) method.line) (b : Option Binding) :
    RaisesAt F (getSuper b keyword method : Run ρ (Value ρ EnvId)) := by
  refine .get fun m => ?_
  dsimp only
  split
  · split
    · exact bindMethod_raises undefined _ _
    · exact bindMethod_raises undefined _ _
    · exact .raise missing
  · exact .raise missing

theorem defineAll_raises (e : EnvId) (names : List Lexeme) (vs : List (Value ρ EnvId)) :
    RaisesAt F (defineAll e names vs) := by
  induction names generalizing vs with
  | nil => exact .pure ()
  | cons name names ih =>
    cases vs with
    | nil => exact .pure ()
    | cons v vs => exact .bind (define_raises e name.text _) fun _ => ih vs

theorem checkArity_raises {expected line : Nat} {as : List (Value ρ EnvId)}
    (mismatch : F (.arityMismatch expected as.length) line) :
    RaisesAt F (checkArity expected as line) := by
  rw [checkArity]
  split
  · exact .pure ()
  · exact .raise mismatch

/-- A class fails only with its clause. -/
theorem defineClass_raises {site : ρ → Option Binding} {name : Lexeme}
    {superclass : Option (ρ × Lexeme)} {ms cs : List (Definition ρ)}
    (h : ∀ fault kind line, (Stmt.class name superclass ms cs).Blames fault kind line → F fault line) :
    RaisesAt F (defineClass site name superclass ms cs) := by
  have clause : RaisesAt F (readSuperclass site superclass) := by
    cases superclass with
    | none => exact .pure none
    | some clause =>
      obtain ⟨ref, above⟩ := clause
      refine .bind (read_raises (h _ _ _ (.undefined _ _ _ _ _)) (h _ _ _ (.uninitialized _ _ _ _ _)) _)
        fun v => ?_
      split
      · exact .pure _
      · exact .raise (h _ _ _ (.superclassNotClass _ _ _ _ _))
  have around (parent : Option (Class ρ EnvId)) : RaisesAt F (methodScope parent) := by
    cases parent with
    | none => exact .get fun m => .pure _
    | some c => exact .bind nest_raises fun e => .bind (define_raises e "super" _) fun _ => .pure e
  refine .bind clause fun parent => .bind (declare_raises name.text) fun slot => ?_
  refine .bind (around parent) fun scope => .bind newObject_raises fun id => ?_
  exact .get fun m => put_raises m.scope slot _

end Steps

/-! Operators. -/

theorem UnaryOp.error_of_apply {op : UnaryOp} {line : Nat} {v : Value ρ EnvId} {e : RuntimeError}
    (h : (op.apply line v : Except RuntimeError (Value ρ EnvId)) = .error e) :
    op = .negate ∧ e = ⟨.numberOperand, some line⟩ := by
  cases op with
  | not => cases h
  | negate =>
    cases v with
    | number x => cases h
    | _ =>
      cases h
      exact ⟨rfl, rfl⟩

theorem BinaryOp.blames_of_apply {op : BinaryOp} {sign : Lexeme} {v w : Value ρ EnvId}
    {e : RuntimeError} (h : (op.apply sign.line v w : Except RuntimeError (Value ρ EnvId)) = .error e)
    (l r : Expr ρ) : e = ⟨e.fault, some sign.line⟩ ∧
      ∃ kind, (Expr.binary op sign l r).Blames e.fault kind sign.line := by
  cases op with
  | comma | equal | notEqual => cases h
  | add =>
    simp only [apply, Value.add] at h
    split at h
    all_goals cases h
    exact ⟨rfl, _, .addOperands sign l r⟩
  | numeric op =>
    simp only [apply] at h
    split at h
    · cases op with
      | divide =>
        simp only [NumericOp.apply] at h
        split at h
        · cases h
          exact ⟨rfl, _, .divisionByZero sign l r⟩
        · cases h
      | _ => cases h
    · cases h
      exact ⟨rfl, _, .numberOperands op sign l r⟩

end Lox
