import Lox.Proofs.Scoping.Names
import Mathlib.Data.List.Nodup

/-!
Scopes on their own. What a phrase does to the scopes around it does not depend on what lies further
out, nor on the routine, class or loop it is in: the scopes it starts in become the same wherever the
phrase stands. A variable that has been read stays so up to the end of its scope.
-/

namespace Lox

namespace Scoping

variable {α β γ δ : Type}

/-- The scope has a variable of this name that has been read. -/
def Scope.Read (scope : Scope) (name : String) : Prop :=
  ∃ v ∈ scope, v.name.text = name ∧ v.usage = .used

/-- The scope that lies so far out has such a variable. -/
def Read (scopes : List Scope) (distance : Nat) (name : String) : Prop :=
  ∃ scope, scopes[distance]? = some scope ∧ scope.Read name

/-- A name has one variable, and what the language itself declares counts as read. -/
structure Scope.Fine (scope : Scope) : Prop where
  nodup : scope.names.Nodup
  read : ∀ v ∈ scope, v.name.Ordinary ∨ v.usage = .used

/-- What can become of scopes while they are open. -/
structure Advance (before after : List Scope) : Prop where
  length : after.length = before.length
  fine : ∀ scope ∈ after, scope.Fine
  read : ∀ {distance name}, Read before distance name → Read after distance name

theorem Advance.refl {scopes : List Scope} (h : ∀ scope ∈ scopes, scope.Fine) :
    Advance scopes scopes := ⟨rfl, h, id⟩

theorem Advance.trans {first second third : List Scope} (h : Advance first second)
    (h' : Advance second third) : Advance first third :=
  ⟨h'.length.trans h.length, h'.fine, fun hr => h'.read (h.read hr)⟩

section Scope

variable {scope : Scope} {outer : List Scope}

theorem read_head (scope : Scope) (outer : List Scope) (name : String) :
    Read (scope :: outer) 0 name ↔ scope.Read name := by
  simp [Read]

/-- A change of the innermost scope. -/
theorem Advance.head {scope' : Scope} (outer_fine : ∀ scope ∈ outer, scope.Fine)
    (fine : scope'.Fine) (read : ∀ {name}, scope.Read name → scope'.Read name) :
    Advance (scope :: outer) (scope' :: outer) where
  length := rfl
  fine := by
    rintro s (_ | ⟨_, hs⟩)
    · exact fine
    · exact outer_fine s hs
  read := by
    rintro (_ | distance) name hr
    · exact (read_head _ _ _).mpr (read ((read_head _ _ _).mp hr))
    · exact hr

/-- A change of the scopes around the innermost one. -/
theorem Advance.cons {after : List Scope} (fine : scope.Fine) (h : Advance outer after) :
    Advance (scope :: outer) (scope :: after) where
  length := congrArg (· + 1) h.length
  fine := by
    rintro s (_ | ⟨_, hs⟩)
    · exact fine
    · exact h.fine s hs
  read := by
    rintro (_ | distance) name hr
    · exact hr
    · obtain ⟨scope, hs, hr⟩ := hr
      exact h.read ⟨scope, hs, hr⟩

/-- What happened to the scopes around one that has been closed. -/
theorem Advance.tail {last : Scope} {after : List Scope}
    (h : Advance (scope :: outer) (last :: after)) : Advance outer after where
  length := Nat.succ.inj h.length
  fine s hs := h.fine s (List.mem_cons_of_mem _ hs)
  read {distance name} hr := by
    have read : Read (last :: after) (distance + 1) name := h.read hr
    exact read

/-- In a scope without repeated names a change of usage concerns one variable. -/
theorem Scope.Fine.setUsage_used (h : scope.Fine) (name : String) :
    (scope.setUsage name .used).Fine where
  nodup := by
    rw [names_setUsage]
    exact h.nodup
  read v hv := by
    obtain ⟨w, hw, rfl⟩ := List.mem_map.mp hv
    split
    · exact .inr rfl
    · exact h.read w hw

/-- To read a name reads its variable and no other one. -/
theorem Scope.read_setUsage_used (name : String) {x : String} :
    (scope.setUsage name .used).Read x ↔ scope.Read x ∨ x = name ∧ x ∈ scope.names := by
  constructor
  · rintro ⟨v, hv, hx, hu⟩
    obtain ⟨w, hw, rfl⟩ := List.mem_map.mp hv
    split at hx
    · rename_i hn
      exact .inr ⟨hx.symm.trans (beq_iff_eq.mp hn), List.mem_map.mpr ⟨w, hw, hx⟩⟩
    · rename_i hn
      rw [if_neg hn] at hu
      exact .inl ⟨w, hw, hx, hu⟩
  · rintro (⟨v, hv, hx, hu⟩ | ⟨rfl, hx⟩)
    · refine ⟨_, List.mem_map_of_mem hv, ?_⟩
      split
      · exact ⟨hx, rfl⟩
      · exact ⟨hx, hu⟩
    · obtain ⟨v, hv, hn⟩ := List.mem_map.mp hx
      refine ⟨_, List.mem_map_of_mem hv, ?_⟩
      rw [if_pos (beq_iff_eq.mpr hn)]
      exact ⟨hn, rfl⟩

/-- To read a name reads the variable it is bound to. -/
theorem read_markUsed {scopes : List Scope} {name x : String} {distance : Nat} :
    Read (markUsed name scopes) distance x ↔
      Read scopes distance x ∨ x = name ∧ (binding? name scopes).any (·.distance == distance) := by
  induction scopes generalizing distance with
  | nil => simp [markUsed, binding?]
  | cons scope outer ih =>
    rw [markUsed, binding?]
    cases hs : scope.slot? name with
    | some slot =>
      have known : name ∈ scope.names := (scope.isSome_slot? name).mp (Option.isSome_of_eq_some hs)
      rw [if_pos (Option.isSome_some)]
      cases distance with
      | zero =>
        rw [read_head, read_head, Scope.read_setUsage_used]
        exact or_congr_right (and_congr_right fun hx => by simp [hx, known])
      | succ distance => simp [Read]
    | none =>
      rw [if_neg (by simp)]
      cases distance with
      | zero => simp [Read, Option.any_map]
      | succ distance =>
        refine Iff.trans ih ?_
        simp [Read, Option.any_map]

theorem Scope.unique (h : scope.names.Nodup) {v w : Variable} (hv : v ∈ scope) (hw : w ∈ scope)
    (hn : w.name.text = v.name.text) : w = v := by
  have nodup : (scope.map (·.name.text)).Nodup := h
  exact List.inj_on_of_nodup_map nodup hw hv hn

/-- The variable that is found by its name is the only one of that name. -/
theorem Scope.eq_of_lookup? (h : scope.names.Nodup) {name : String} {v w : Variable}
    (hv : scope.lookup? name = some v) (hw : w ∈ scope) (hn : w.name.text = name) : w = v := by
  have found := List.find?_some (p := fun v : Variable => v.name.text == name) hv
  exact unique h (List.mem_of_find?_eq_some hv) hw (hn.trans (beq_iff_eq.mp found).symm)

/-- The end of an initial value concerns the variable only while it is declared and no more. -/
theorem Scope.define_eq (h : scope.names.Nodup) (name : String) : scope.define name = scope.map fun v =>
    if v.name.text = name ∧ v.usage = .declared then { v with usage := .defined } else v := by
  rw [define]
  split
  · rename_i found
    refine List.map_congr_left fun v hv => ?_
    by_cases hn : v.name.text = name
    · simp [eq_of_lookup? h found hv hn]
    · simp [hn]
  · rename_i other
    rw [List.map_congr_left (g := id) fun v hv => ?_, List.map_id]
    refine if_neg fun ⟨hn, hu⟩ => ?_
    have known : (scope.lookup? name).isSome := List.find?_isSome.mpr ⟨v, hv, beq_iff_eq.mpr hn⟩
    obtain ⟨w, hw⟩ := Option.isSome_iff_exists.mp known
    rw [← eq_of_lookup? h hw hv hn] at hw
    exact other v.name (hw.trans (hu ▸ rfl))

theorem Scope.read_define (h : scope.names.Nodup) (name : String) {x : String} :
    (scope.define name).Read x ↔ scope.Read x := by
  rw [define_eq h]
  constructor
  · rintro ⟨v, hv, hx, hu⟩
    obtain ⟨w, hw, rfl⟩ := List.mem_map.mp hv
    split at hu
    · cases hu
    · rename_i kept
      rw [if_neg kept] at hx
      exact ⟨w, hw, hx, hu⟩
  · rintro ⟨v, hv, hx, hu⟩
    have kept : ¬ (v.name.text = name ∧ v.usage = .declared) := fun declared => by
      rw [hu] at declared
      cases declared.2
    exact ⟨v, List.mem_map.mpr ⟨v, hv, if_neg kept⟩, hx, hu⟩

theorem Scope.Fine.define (h : scope.Fine) (name : String) :
    (scope.define name).Fine ∧ ∀ {x}, scope.Read x → (scope.define name).Read x := by
  refine ⟨⟨?_, fun v hv => ?_⟩, (read_define h.nodup name).mpr⟩
  · rw [names_define]
    exact h.nodup
  · rw [define_eq h.nodup] at hv
    obtain ⟨w, hw, rfl⟩ := List.mem_map.mp hv
    split
    · rename_i declared
      have ordinary := h.read w hw
      rw [declared.2] at ordinary
      exact .inl (ordinary.resolve_right (by decide))
    · exact h.read w hw

theorem Scope.Fine.declare (h : scope.Fine) {name : Lexeme} (ordinary : name.Ordinary)
    (fresh : name.text ∉ scope.names) : Scope.Fine (scope ++ [⟨name, .declared⟩]) where
  nodup := by
    rw [names, List.map_append, List.nodup_append]
    refine ⟨h.nodup, List.pairwise_singleton _ _, ?_⟩
    rintro x hx y hy rfl
    obtain rfl : x = name.text := List.mem_singleton.mp hy
    exact fresh hx
  read v hv := by
    obtain hv | hv := List.mem_append.mp hv
    · exact h.read v hv
    · exact .inl (List.mem_singleton.mp hv ▸ ordinary)

theorem Scope.read_append (more : Scope) {name : String} (h : scope.Read name) :
    Scope.Read (scope ++ more) name := by
  obtain ⟨v, hv, hn⟩ := h
  exact ⟨v, List.mem_append_left _ hv, hn⟩

end Scope

/-- The scopes that are open where both phrases start become the same, whatever lies around them for
the first one, and wherever the two phrases stand. -/
def Alone (p : Scoping α) (q : Scoping β) : Prop :=
  ∀ inner outer fs gs, (∀ scope ∈ inner, Scope.Fine scope) → ∃ inner' outer',
    (p ⟨inner ++ outer, fs⟩).2.scopes = inner' ++ outer' ∧ (q ⟨inner, gs⟩).2.scopes = inner' ∧
      Advance inner inner'

/-- What is left when a scope that was opened has been closed again. -/
theorem inScope_closed {scope last : Scope} {outer : List Scope} {phrase : Scoping α} {s : State}
    (h : (phrase { s with scopes := scope :: s.scopes }).2.scopes = last :: outer) :
    (inScope scope phrase s).2 =
      ⟨outer, (phrase { s with scopes := scope :: s.scopes }).2.findings ++ last.unused⟩ := by
  rw [inScope_run, h]

/-! The checks of words leave the scopes as they are. -/

section Checks

variable (c : Context) (keyword : Lexeme)

theorem scopes_checkThis (s : State) : (checkThis c keyword s).2.scopes = s.scopes := by
  unfold checkThis
  split
  · rfl
  · split <;> rfl

theorem scopes_checkSuper (s : State) : (checkSuper c keyword s).2.scopes = s.scopes := by
  unfold checkSuper
  rcases c.classKind with _ | _ | _ <;> rfl

theorem scopes_checkReturn (hasValue : Bool) (s : State) :
    (checkReturn c keyword hasValue s).2.scopes = s.scopes := by
  by_cases h : c.routineKind.isNone = true <;>
    by_cases h' : (hasValue && c.routineKind = some .initializer) = true <;>
    simp only [checkReturn, h, h', if_true] <;> rfl

theorem scopes_checkBreak (s : State) : (checkBreak c keyword s).2.scopes = s.scopes := by
  unfold checkBreak
  split <;> rfl

end Checks

namespace Alone

variable {p : Scoping α} {q : Scoping β} {k : α → Scoping γ} {l : β → Scoping δ}

theorem pure (a : α) (b : β) : Alone (Pure.pure a) (Pure.pure b) :=
  fun inner outer _ _ fine => ⟨inner, outer, rfl, rfl, .refl fine⟩

theorem bind (hp : Alone p q) (hk : ∀ a b, Alone (k a) (l b)) : Alone (p >>= k) (q >>= l) := by
  intro inner outer fs gs fine
  obtain ⟨inner₁, outer₁, hp, hq, first⟩ := hp inner outer fs gs fine
  obtain ⟨inner₂, outer₂, hk, hl, second⟩ := hk (p ⟨inner ++ outer, fs⟩).1 (q ⟨inner, gs⟩).1 inner₁
    outer₁ (p ⟨inner ++ outer, fs⟩).2.findings (q ⟨inner, gs⟩).2.findings first.fine
  refine ⟨inner₂, outer₂, ?_, ?_, first.trans second⟩
  · rw [← hp] at hk
    exact hk
  · rw [← hq] at hl
    exact hl

theorem ret (hp : Alone p q) (f : α → γ) (g : β → δ) :
    Alone (do return f (← p)) (do return g (← q)) := hp.bind fun _ _ => pure _ _

/-- A phrase that changes the scopes by a function of them, scope by scope. -/
theorem of_scopes {p q : Scoping α} (f : List Scope → List Scope)
    (hp : ∀ s, (p s).2.scopes = f s.scopes) (hq : ∀ s, (q s).2.scopes = f s.scopes)
    (hf : ∀ inner outer, (∀ scope ∈ inner, Scope.Fine scope) →
      Advance inner (f inner) ∧ ∃ outer', f (inner ++ outer) = f inner ++ outer') : Alone p q := by
  intro inner outer fs gs fine
  obtain ⟨advance, outer', split⟩ := hf inner outer fine
  exact ⟨f inner, outer', (hp _).trans split, hq _, advance⟩

/-- A phrase that leaves the scopes as they are. -/
theorem still {p : Scoping α} {q : Scoping β} (hp : ∀ s, (p s).2.scopes = s.scopes)
    (hq : ∀ s, (q s).2.scopes = s.scopes) : Alone p q :=
  fun inner outer _ _ fine => ⟨inner, outer, hp _, hq _, .refl fine⟩

theorem note (fault : Fault) (place : Lexeme) :
    Alone (note fault place) (Scoping.note fault place) := still (fun _ => rfl) fun _ => rfl

theorem checkThis (c d : Context) (keyword : Lexeme) :
    Alone (checkThis c keyword) (Scoping.checkThis d keyword) :=
  still (scopes_checkThis c keyword) (scopes_checkThis d keyword)

theorem checkSuper (c d : Context) (keyword : Lexeme) :
    Alone (checkSuper c keyword) (Scoping.checkSuper d keyword) :=
  still (scopes_checkSuper c keyword) (scopes_checkSuper d keyword)

theorem checkReturn (c d : Context) (keyword : Lexeme) (hasValue : Bool) :
    Alone (checkReturn c keyword hasValue) (Scoping.checkReturn d keyword hasValue) :=
  still (scopes_checkReturn c keyword hasValue) (scopes_checkReturn d keyword hasValue)

theorem checkBreak (c d : Context) (keyword : Lexeme) :
    Alone (checkBreak c keyword) (Scoping.checkBreak d keyword) :=
  still (scopes_checkBreak c keyword) (scopes_checkBreak d keyword)

/-- A change of the innermost scope alone. -/
def onInnermost (f : Scope → Scope) : List Scope → List Scope
  | [] => []
  | scope :: outer => f scope :: outer

theorem modifyInnermost {p q : Scoping α} (f : Scope → Scope)
    (hp : ∀ s, (p s).2.scopes = onInnermost f s.scopes)
    (hq : ∀ s, (q s).2.scopes = onInnermost f s.scopes)
    (hf : ∀ scope : Scope, scope.Fine → (f scope).Fine ∧ ∀ {name}, scope.Read name → (f scope).Read name) :
    Alone p q := by
  refine of_scopes (onInnermost f) hp hq fun inner outer fine => ?_
  cases inner with
  | nil => exact ⟨.refl fine, _, rfl⟩
  | cons scope inner =>
    obtain ⟨innermost, rest⟩ := List.forall_mem_cons.mp fine
    obtain ⟨fine, read⟩ := hf scope innermost
    exact ⟨.head rest fine read, outer, rfl⟩

theorem define (name : Lexeme) : Alone (define name) (Scoping.define name) := by
  have defined (s : State) : (Scoping.define name s).2.scopes =
      onInnermost (·.define name.text) s.scopes := by
    obtain ⟨_ | ⟨scope, outer⟩, fs⟩ := s <;> rfl
  exact modifyInnermost _ defined defined fun scope fine => fine.define name.text

theorem declare {name : Lexeme} (ordinary : name.Ordinary) :
    Alone (declare name) (Scoping.declare name) := by
  have declared (s : State) : (Scoping.declare name s).2.scopes = onInnermost
      (fun scope => if name.text ∈ scope.names then scope else scope ++ [⟨name, .declared⟩])
      s.scopes := by
    rw [declare_run]
    obtain ⟨_ | ⟨scope, outer⟩, fs⟩ := s
    · rfl
    · simp only [onInnermost]
      split <;> rfl
  refine modifyInnermost _ declared declared fun scope fine => ?_
  by_cases h : name.text ∈ scope.names
  · simp only [if_pos h]
    exact ⟨fine, id⟩
  · simp only [if_neg h]
    exact ⟨fine.declare ordinary h, Scope.read_append _⟩

theorem declareAll {names : List Lexeme} (ordinary : ∀ name ∈ names, name.Ordinary) :
    Alone (declareAll names) (Scoping.declareAll names) := by
  induction names with
  | nil => exact pure () ()
  | cons name names ih =>
    obtain ⟨first, rest⟩ := List.forall_mem_cons.mp ordinary
    exact (declare first).bind fun _ _ => (define name).bind fun _ _ => ih rest

theorem markUsed (name : String) {p q : Scoping α}
    (hp : ∀ s, (p s).2.scopes = markUsed name s.scopes)
    (hq : ∀ s, (q s).2.scopes = Scoping.markUsed name s.scopes) : Alone p q := by
  refine of_scopes (Scoping.markUsed name) hp hq fun inner outer fine => ?_
  induction inner with
  | nil => exact ⟨.refl fine, _, rfl⟩
  | cons scope inner ih =>
    obtain ⟨innermost, rest⟩ := List.forall_mem_cons.mp fine
    simp only [List.cons_append, Scoping.markUsed]
    by_cases h : (scope.slot? name).isSome = true
    · simp only [if_pos h]
      exact ⟨.head rest (innermost.setUsage_used name) fun read =>
        (Scope.read_setUsage_used name).mpr (.inl read), outer, rfl⟩
    · simp only [if_neg h]
      obtain ⟨advance, outer', split⟩ := ih rest
      exact ⟨advance.cons innermost, outer', congrArg (scope :: ·) split⟩

theorem scopes_read (id : RefId) (name : Lexeme) (s : State) :
    (Scoping.read id name s).2.scopes = Scoping.markUsed name.text s.scopes := by
  rw [read_run]

theorem read (id : RefId) (name : Lexeme) : Alone (read id name) (Scoping.read id name) :=
  markUsed name.text (scopes_read id name) (scopes_read id name)

theorem bindRef (id : RefId) (name : Lexeme) : Alone (Scoping.bind id name) (Scoping.bind id name) :=
  still (fun _ => rfl) fun _ => rfl

/-- A scope that is opened and closed again. -/
theorem inScope {scope : Scope} (fine : scope.Fine) (hp : Alone p q) :
    Alone (inScope scope p) (Scoping.inScope scope q) := by
  intro inner outer fs gs inner_fine
  obtain ⟨inner', outer', hp, hq, advance⟩ := hp (scope :: inner) outer fs gs
    (List.forall_mem_cons.mpr ⟨fine, inner_fine⟩)
  obtain ⟨last, inner', rfl⟩ : ∃ last rest, inner' = last :: rest :=
    List.exists_cons_of_length_eq_add_one advance.length
  refine ⟨inner', outer', ?_, ?_, advance.tail⟩
  · exact congrArg State.scopes (inScope_closed hp)
  · exact congrArg State.scopes (inScope_closed hq)

end Alone

end Scoping

open Scoping

theorem Scoping.Scope.fine_nil : Scope.Fine [] := ⟨List.nodup_nil, fun _ h => nomatch h⟩

theorem Scoping.Scope.fine_own (name : String) : Scope.Fine [⟨⟨name, 0⟩, .used⟩] :=
  ⟨List.pairwise_singleton _ _, fun _ h => .inr (List.mem_singleton.mp h ▸ rfl)⟩

mutual

theorem Expr.resolve_alone : ∀ (c d : Context) {e : Expr RefId}, e.Tidy →
    Alone (e.resolve c) (e.resolve d)
  | _, _, .literal _, _ => .pure _ _
  | _, _, .variable id name, _ => (Alone.read id name).ret _ _
  | c, d, .assign id name _, h => (Expr.resolve_alone c d h.2).bind fun _ _ =>
    (Alone.bindRef id name).ret _ _
  | c, d, .this id keyword, _ => (Alone.checkThis c d keyword).bind fun _ _ =>
    (Alone.bindRef id keyword).ret _ _
  | c, d, .super id keyword _, _ => (Alone.checkSuper c d keyword).bind fun _ _ =>
    (Alone.bindRef id keyword).ret _ _
  | c, d, .unary _ _ e, h | c, d, .group e, h | c, d, .get e _, h =>
    (Expr.resolve_alone c d (e := e) h).ret _ _
  | c, d, .binary _ _ _ _, h | c, d, .logical _ _ _ _, h =>
    (Expr.resolve_alone c d h.1).bind fun _ _ => (Expr.resolve_alone c d h.2).ret _ _
  | c, d, .ternary _ _ _, h => (Expr.resolve_alone c d h.1).bind fun _ _ =>
    (Expr.resolve_alone c d h.2.1).bind fun _ _ => (Expr.resolve_alone c d h.2.2).ret _ _
  | c, d, .call _ _ _, h => (Expr.resolve_alone c d h.1).bind fun _ _ =>
    (Expr.resolveAll_alone c d h.2).ret _ _
  | c, d, .set _ _ _, h => (Expr.resolve_alone c d h.2).bind fun _ _ =>
    (Expr.resolve_alone c d h.1).ret _ _
  | c, d, .lambda _ r, h => (Routine.resolve_alone c d .lambda .lambda (r := r) h).ret _ _

theorem Expr.resolveAll_alone : ∀ (c d : Context) {es : List (Expr RefId)}, Expr.TidyAll es →
    Alone (Expr.resolveAll c es) (Expr.resolveAll d es)
  | _, _, [], _ => .pure _ _
  | c, d, _ :: _, h => (Expr.resolve_alone c d h.1).bind fun _ _ =>
    (Expr.resolveAll_alone c d h.2).ret _ _

theorem Stmt.resolve_alone : ∀ (c d : Context) {s : Stmt RefId}, s.Tidy →
    Alone (s.resolve c) (s.resolve d)
  | c, d, .expr e, h | c, d, .print e, h => (Expr.resolve_alone c d (e := e) h).ret _ _
  | _, _, .var name none, h => (Alone.declare h).bind fun _ _ => (Alone.define name).ret _ _
  | c, d, .var name (some _), h => (Alone.declare h.1).bind fun _ _ =>
    (Expr.resolve_alone c d h.2).bind fun _ _ => (Alone.define name).ret _ _
  | c, d, .block _, h => (Alone.inScope Scope.fine_nil (Stmt.resolveAll_alone c d h)).ret _ _
  | c, d, .if _ _ none, h => (Expr.resolve_alone c d h.1).bind fun _ _ =>
    (Stmt.resolve_alone c d h.2.1).ret _ _
  | c, d, .if _ _ (some _), h => (Expr.resolve_alone c d h.1).bind fun _ _ =>
    (Stmt.resolve_alone c d h.2.1.1).bind fun _ _ => (Stmt.resolve_alone c d h.2.2.1).ret _ _
  | c, d, .while _ _, h => (Expr.resolve_alone c d h.1).bind fun _ _ =>
    (Stmt.resolve_alone _ _ h.2.1).ret _ _
  | c, d, .break keyword, _ => (Alone.checkBreak c d keyword).ret _ _
  | c, d, .return keyword none, _ => (Alone.checkReturn c d keyword false).ret _ _
  | c, d, .return keyword (some e), h => (Alone.checkReturn c d keyword true).bind fun _ _ =>
    (Expr.resolve_alone c d (e := e) h).ret _ _
  | c, d, .function ⟨name, _⟩, h => (Alone.declare h.1).bind fun _ _ =>
    (Alone.define name).bind fun _ _ => (Definition.resolve_alone c d .function .function h).ret _ _
  | _, _, .class name none _ _, h => (Alone.declare h.1).bind fun _ _ =>
    (Alone.define name).bind fun _ _ => Alone.inScope (Scope.fine_own "this") <|
      (Definition.resolveMethods_alone _ _ h.2.1).bind fun _ _ =>
        (Definition.resolveClassMethods_alone _ _ h.2.2).ret _ _
  | c, d, .class name (some (id, superclass)) ms cs, h => by
    have body (r r' : Reference) : Alone
        (do
          let context := { c with classKind := some .derived }
          inScopeOf "super" <| inScopeOf "this" do
            return Stmt.class name (some (r, superclass)) (← Definition.resolveMethods context ms)
              (← Definition.resolveClassMethods context cs))
        (do
          let context := { d with classKind := some .derived }
          inScopeOf "super" <| inScopeOf "this" do
            return Stmt.class name (some (r', superclass)) (← Definition.resolveMethods context ms)
              (← Definition.resolveClassMethods context cs)) := by
      apply Alone.inScope (Scope.fine_own "super")
      apply Alone.inScope (Scope.fine_own "this")
      apply (Definition.resolveMethods_alone _ _ h.2.1).bind
      intro _ _
      exact (Definition.resolveClassMethods_alone _ _ h.2.2).ret _ _
    apply (Alone.declare h.1).bind
    intro _ _
    apply (Alone.define name).bind
    intro _ _
    split
    · exact (Alone.note _ _).bind fun _ _ => (Alone.read id superclass).bind body
    · exact (Alone.read id superclass).bind body

theorem Stmt.resolveAll_alone : ∀ (c d : Context) {ss : List (Stmt RefId)}, Stmt.TidyAll ss →
    Alone (Stmt.resolveAll c ss) (Stmt.resolveAll d ss)
  | _, _, [], _ => .pure _ _
  | c, d, _ :: _, h => (Stmt.resolve_alone c d h.1).bind fun _ _ =>
    (Stmt.resolveAll_alone c d h.2).ret _ _

theorem Routine.resolve_alone : ∀ (c d : Context) (kind kind' : RoutineKind) {r : Routine RefId},
    r.Tidy → Alone (r.resolve c kind) (r.resolve d kind')
  | _, _, _, _, ⟨_, _⟩, h => Alone.inScope Scope.fine_nil <| (Alone.declareAll h.1).bind fun _ _ =>
    (Stmt.resolveAll_alone _ _ h.2).ret _ _

theorem Definition.resolve_alone : ∀ (c d : Context) (kind kind' : RoutineKind)
    {m : Definition RefId}, m.Tidy → Alone (m.resolve c kind) (m.resolve d kind')
  | c, d, kind, kind', ⟨_, _⟩, h => (Routine.resolve_alone c d kind kind' h.2).ret _ _

theorem Definition.resolveMethods_alone : ∀ (c d : Context) {ms : List (Definition RefId)},
    Definition.TidyAll ms → Alone (Definition.resolveMethods c ms) (Definition.resolveMethods d ms)
  | _, _, [], _ => .pure _ _
  | c, d, ⟨_, _⟩ :: _, h => (Definition.resolve_alone c d _ _ h.1).bind fun _ _ =>
    (Definition.resolveMethods_alone c d h.2).ret _ _

theorem Definition.resolveClassMethods_alone : ∀ (c d : Context) {ms : List (Definition RefId)},
    Definition.TidyAll ms →
      Alone (Definition.resolveClassMethods c ms) (Definition.resolveClassMethods d ms)
  | _, _, [], _ => .pure _ _
  | c, d, _ :: _, h => (Definition.resolve_alone c d _ _ h.1).bind fun _ _ =>
    (Definition.resolveClassMethods_alone c d h.2).ret _ _

end

end Lox
