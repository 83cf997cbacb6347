import Lox.Proofs.Names
import Lox.Proofs.Scoping.OwnInitializer
import Lox.Proofs.Scoping.Placement
import Lox.Proofs.Scoping.Unread

/-!
Unused variables, told from the tree alone. A variable of a scope is read by the words of this scope
whose name, as the scopes around the word have it, leads out to it. When scoping closes the scope it
reports those variables that no word has read, and it reports nothing else as unused.
-/

namespace Lox

namespace Scoping

/-- Does the word declare a local variable? A scope that has the name already gets no other one. -/
def Mention.isLocal (m : Mention) : Bool :=
  match m.word, m.around.levels with
  | .declaration name _, names :: _ => !names.contains name.text
  | _, _ => false

/-- Those of the words that declare a variable of the scope of this height. -/
def localsAt (height : Nat) (words : List Mention) : List Mention :=
  words.filter fun m => m.isLocal && m.around.levels.length == height

namespace Extent

variable (E : Extent)

/-- The words that declare the variables of the scope. -/
def locals : List Mention := localsAt E.height E.words

/-- Does a word read the variable of this name? -/
def reads (name : String) : Bool := E.words.any (·.readsAt name E.height)

/-- What there is to report about the variables that no word reads. -/
def unused : List Finding :=
  (E.locals.filter fun m => !E.reads m.word.lexeme.text).map fun m => ⟨.unusedVariable, m.word.lexeme⟩

theorem unusedOf_unused : unusedOf E.unused = E.unused := by
  rw [unusedOf, List.filter_eq_self]
  intro f hf
  obtain ⟨m, -, rfl⟩ := List.mem_map.mp hf
  rfl

end Extent

section Scopes

variable {scope before outer : Scope} {scopes : List Scope} {name x : String} {s : State}

def Scope.lexemes (scope : Scope) : List Lexeme := scope.map (·.name)

def State.lexemes (s : State) : List (List Lexeme) := s.scopes.map Scope.lexemes

theorem Scope.lexemes_setUsage (scope : Scope) (name : String) (usage : Usage) :
    (scope.setUsage name usage).lexemes = scope.lexemes := by
  rw [lexemes, setUsage, List.map_map]
  refine List.map_congr_left fun v _ => ?_
  by_cases h : (v.name.text == name) = true
  · simp only [Function.comp, if_pos h]
  · simp only [Function.comp, if_neg h]

theorem Scope.names_eq (scope : Scope) : scope.names = scope.lexemes.map (·.text) :=
  (List.map_map ..).symm

theorem lexemes_markUsed (name : String) (scopes : List Scope) :
    (markUsed name scopes).map Scope.lexemes = scopes.map Scope.lexemes := by
  induction scopes with
  | nil => rfl
  | cons scope scopes ih =>
    rw [markUsed]
    split
    · rw [List.map_cons, List.map_cons, Scope.lexemes_setUsage]
    · rw [List.map_cons, List.map_cons, ih]

theorem lexemes_define (name : Lexeme) (s : State) : (define name s).2.lexemes = s.lexemes := by
  obtain ⟨_ | ⟨scope, outer⟩, fs⟩ := s
  · rfl
  · change (scope.define name.text).lexemes :: _ = _
    rw [Scope.define]
    split
    · rw [Scope.lexemes_setUsage]
      rfl
    · rfl

instance (scope : Scope) (name : String) : Decidable (scope.Read name) :=
  inferInstanceAs (Decidable (∃ v ∈ scope, v.name.text = name ∧ v.usage = .used))

/-- What is reported at the end of a scope, by the names that have been read. -/
theorem Scope.unused_eq (nodup : scope.names.Nodup) : scope.unused =
    (scope.lexemes.filter fun l => ¬ scope.Read l.text).map (⟨.unusedVariable, ·⟩) := by
  have used : ∀ v ∈ scope, scope.Read v.name.text ↔ v.usage = .used := by
    intro v hv
    constructor
    · rintro ⟨w, hw, hn, hu⟩
      rwa [unique nodup hv hw hn] at hu
    · exact fun hu => ⟨v, hv, rfl, hu⟩
  rw [unused, lexemes, List.filter_map, List.map_map]
  congr 1
  refine List.filter_congr fun v hv => ?_
  simp [used v hv, bne, beq_eq_decide]

/-- A scope that began with names that count as read reports the others. -/
theorem Scope.unused_behind {locals : List Lexeme} {reads : String → Bool} (nodup : scope.names.Nodup)
    (lexemes : scope.lexemes = before.lexemes ++ locals) (used : ∀ v ∈ before, v.usage = .used)
    (read : ∀ x, scope.Read x ↔ before.Read x ∨ reads x) :
    scope.unused = (locals.filter fun l => !reads l.text).map (⟨.unusedVariable, ·⟩) := by
  have known : ∀ x, before.Read x ↔ x ∈ before.lexemes.map (·.text) := by
    intro x
    simp only [Scope.Read, Scope.lexemes, List.map_map, List.mem_map, Function.comp]
    exact exists_congr fun v => and_congr_right fun hv => and_iff_left (used v hv)
  have apart : ∀ l ∈ locals, ¬ before.Read l.text := by
    intro l hl early
    have names := nodup
    rw [names_eq, lexemes, List.map_append, List.nodup_append] at names
    exact names.2.2 l.text ((known l.text).mp early) l.text (List.mem_map_of_mem hl) rfl
  rw [unused_eq nodup, lexemes, List.filter_append, List.filter_eq_nil_iff.mpr, List.nil_append]
  · congr 1
    refine List.filter_congr fun l hl => ?_
    simp [read l.text, apart l hl]
  · intro l hl
    have early := (known l.text).mpr (List.mem_map_of_mem hl)
    simp [read l.text, early]

end Scopes

section Words

variable {S : Surroundings} {s : State} {name : Lexeme} {distance height : Nat} {x : String}

theorem localsAt_append (height : Nat) (ms ms' : List Mention) :
    localsAt height (ms ++ ms') = localsAt height ms ++ localsAt height ms' :=
  List.filter_append ms ms'

theorem localsAt_cons (height : Nat) (m : Mention) (ms : List Mention) :
    localsAt height (m :: ms) = localsAt height [m] ++ localsAt height ms := localsAt_append height [m] ms

/-- Outside all scopes no variable is local. -/
theorem localsAt_zero (ms : List Mention) : localsAt 0 ms = [] := by
  refine List.filter_eq_nil_iff.mpr fun m _ => ?_
  rcases m with ⟨_, ⟨_ | ⟨names, outer⟩, frames⟩⟩
  · simp [Mention.isLocal]
  · simp

/-- Words further in declare no variable of the scope. -/
theorem localsAt_eq_nil {ms : List Mention} (h : ∀ m ∈ ms, height < m.around.levels.length) :
    localsAt height ms = [] := by
  refine List.filter_eq_nil_iff.mpr fun m hm => ?_
  simp [Nat.ne_of_gt (h m hm)]

theorem nodup_names (hs : s.names = S.names) : ∀ scope ∈ s.scopes, scope.names.Nodup := by
  intro scope h
  have listed : scope.names ∈ S.names := hs ▸ List.mem_map_of_mem h
  obtain ⟨names, -, same⟩ := List.mem_map.mp listed
  exact same ▸ nodup_eraseDups names

theorem modifyHead_append_nil (scopes : List (List Lexeme)) : scopes.modifyHead (· ++ []) = scopes := by
  cases scopes <;> simp

/-- A declaration makes a variable where it is a local one. -/
theorem lexemes_declare (hs : s.names = S.names) (initial : Option (Expr RefId)) :
    (declare name s).2.lexemes = s.lexemes.modifyHead
      (· ++ (localsAt S.levels.length [⟨.declaration name initial, S⟩]).map (·.word.lexeme)) := by
  obtain ⟨scopes, fs⟩ := s
  obtain ⟨levels, frames⟩ := S
  rw [declare_run]
  cases scopes with
  | nil => rfl
  | cons scope outer =>
    obtain ⟨names, levels, rfl, hn, -⟩ := List.map_eq_cons_iff.mp hs.symm
    have known : name.text ∈ scope.names ↔ name.text ∈ names := by
      rw [← hn, List.mem_eraseDups]
    by_cases h : name.text ∈ names
    · simp [State.lexemes, known, h, localsAt, Mention.isLocal]
    · simp [State.lexemes, Scope.lexemes, known, h, localsAt, Mention.isLocal, Word.lexeme]

theorem read_declare : Read (declare name s).2.scopes distance x ↔ Read s.scopes distance x := by
  rw [declare_run]
  obtain ⟨_ | ⟨scope, outer⟩, fs⟩ := s
  · rfl
  · dsimp only
    split
    · rfl
    · cases distance with
      | zero => simp [read_head, Scope.Read]
      | succ distance => rfl

theorem read_define (hs : s.names = S.names) :
    Read (define name s).2.scopes distance x ↔ Read s.scopes distance x := by
  have nodup := nodup_names hs
  obtain ⟨_ | ⟨scope, outer⟩, fs⟩ := s
  · rfl
  · cases distance with
    | zero =>
      change Read (scope.define name.text :: outer) 0 x ↔ _
      rw [read_head, read_head, Scope.read_define (nodup scope List.mem_cons_self)]
    | succ distance => rfl

theorem unusedOf_misplacements (m : Mention) : unusedOf m.misplacements = [] := by
  refine List.filter_eq_nil_iff.mpr fun f hf => ?_
  obtain ⟨fault, placed, rfl⟩ := List.mem_map.mp hf
  have other := Fault.ne_unused (List.mem_of_mem_filter placed)
  simpa using other

theorem unusedOf_read (id : RefId) (name : Lexeme) (s : State) :
    unusedOf (read id name s).2.findings = unusedOf s.findings := by
  rw [read_run, unusedOf_append]
  split <;> exact List.append_nil _

end Words

variable {α β : Type}

/-- The words are in the scopes around them, and the innermost scope gets the variables that they
declare there. What they read has been read, and of the scopes that have been closed it has been reported
what they leave unused. -/
structure Settles (S : Surroundings) (ds : List String) (ms : List Mention) (es : List Extent)
    (p : Scoping α) : Prop extends Declares S ds p where
  deep : ∀ m ∈ ms, S.levels.length ≤ m.around.levels.length
  placed : ∀ m ∈ ms, ∀ height, S.levels.length < height → height ≤ m.around.levels.length →
    ∃ E ∈ es, E.height = height ∧ m ∈ E.words
  locals : (es.flatMap Extent.locals ++ localsAt S.levels.length ms).Perm (ms.filter Mention.isLocal)
  lexemes : ∀ s, s.names = S.names → (p s).2.lexemes = s.lexemes.modifyHead
    (· ++ (localsAt S.levels.length ms).map (·.word.lexeme))
  read : ∀ s, s.names = S.names → ∀ {distance height}, height + distance = S.levels.length →
    ∀ x, Read (p s).2.scopes distance x ↔ Read s.scopes distance x ∨ ms.any (·.readsAt x height)
  unused : ∀ s, s.names = S.names →
    unusedOf (p s).2.findings = unusedOf s.findings ++ es.flatMap Extent.unused

namespace Settles

variable {S : Surroundings} {ds ds' : List String} {ms ms' : List Mention} {es es' : List Extent}
  {p : Scoping α} {k : α → Scoping β}

theorem pure (S : Surroundings) (a : α) : Settles S [] [] [] (Pure.pure a : Scoping α) where
  toDeclares := .of_moves (.pure a)
  deep _ hm := nomatch hm
  placed _ hm := nomatch hm
  locals := .refl []
  lexemes s _ := (modifyHead_append_nil s.lexemes).symm
  read _ _ _ _ _ _ := by
    rw [List.any_nil, or_iff_left Bool.false_ne_true]
    rfl
  unused _ _ := (List.append_nil _).symm

theorem bind (hp : Settles S ds ms es p) (hk : ∀ a, Settles (S.declare ds) ds' ms' es' (k a)) :
    Settles S (ds ++ ds') (ms ++ ms') (es ++ es') (p >>= k) where
  toDeclares := hp.toDeclares.bind fun a => (hk a).toDeclares
  deep m hm := by
    obtain hm | hm := List.mem_append.mp hm
    · exact hp.deep m hm
    · exact S.length_declare ds ▸ (hk (p {}).1).deep m hm
  placed m hm height above below := by
    obtain hm | hm := List.mem_append.mp hm
    · obtain ⟨E, hE, found⟩ := hp.placed m hm height above below
      exact ⟨E, List.mem_append_left _ hE, found⟩
    · obtain ⟨E, hE, found⟩ := (hk (p {}).1).placed m hm height (S.length_declare ds ▸ above) below
      exact ⟨E, List.mem_append_right _ hE, found⟩
  locals := by
    have rest := (hk (p {}).1).locals
    rw [S.length_declare] at rest
    rw [List.flatMap_append, localsAt_append, List.filter_append, List.append_assoc]
    refine ((List.perm_append_comm_assoc _ _ _).append_left _).trans ?_
    rw [← List.append_assoc]
    exact hp.locals.append rest
  lexemes s hs := by
    refine ((hk (p s).1).lexemes (p s).2 (hp.names s hs)).trans ?_
    rw [hp.lexemes s hs, S.length_declare, List.modifyHead_modifyHead, localsAt_append, List.map_append]
    simp only [Function.comp_def, List.append_assoc]
  read s hs distance height hd x := by
    rw [List.any_append, Bool.or_eq_true, ← or_assoc, ← hp.read s hs hd x]
    exact (hk (p s).1).read (p s).2 (hp.names s hs) (hd.trans (S.length_declare ds).symm) x
  unused s hs := by
    rw [List.flatMap_append, ← List.append_assoc, ← hp.unused s hs]
    exact (hk (p s).1).unused (p s).2 (hp.names s hs)

theorem within {frame : Frame} (h : Settles (S.within frame) ds ms es p) : Settles S ds ms es p :=
  ⟨h.toDeclares.within, h.deep, h.placed, h.locals, h.lexemes, h.read, h.unused⟩

section InScope

variable {scope : Scope} {names : List String} (h : Settles (S.opened names) ds ms es p)
  (hn : scope.names = names.eraseDups) (used : ∀ v ∈ scope, v.usage = .used)

include h hn used

/-- When a scope is closed, what its words leave unused is reported. -/
theorem closes {s : State} (hs : s.names = S.names) : ∃ last outer,
    (p (s.opened scope)).2.scopes = last :: outer ∧ inScope scope p s = ((p (s.opened scope)).1,
      ⟨outer, (p (s.opened scope)).2.findings ++ (S.extent ms).unused⟩) := by
  have opened := Surroundings.names_of_opened hn hs
  obtain ⟨last, outer, ended, -, closed⟩ := h.toDeclares.closes hn hs
  have nodup : last.names.Nodup := nodup_names (h.names _ opened) last (ended ▸ List.mem_cons_self)
  have lexemes := h.lexemes _ opened
  rw [State.lexemes, ended] at lexemes
  have read (x : String) : last.Read x ↔ scope.Read x ∨ (S.extent ms).reads x := by
    rw [← read_head last outer, ← read_head scope s.scopes, ← ended]
    exact h.read _ opened (Nat.add_zero _) x
  refine ⟨last, outer, ended, ?_⟩
  rw [closed, Scope.unused_behind nodup (List.cons.inj lexemes).1 used read, Extent.unused,
    List.filter_map, List.map_map]
  rfl

theorem inScope : Settles S [] ms (es ++ [S.extent ms]) (inScope scope p) where
  toDeclares := h.toDeclares.inScope hn
  deep m hm := Nat.le_of_succ_le (h.deep m hm)
  placed m hm height above below := by
    obtain rfl | further := Nat.eq_or_lt_of_le (Nat.succ_le_of_lt above)
    · exact ⟨S.extent ms, List.mem_append_right _ List.mem_cons_self, rfl, hm⟩
    · obtain ⟨E, hE, found⟩ := h.placed m hm height further below
      exact ⟨E, List.mem_append_left _ hE, found⟩
  locals := by
    rw [localsAt_eq_nil h.deep, List.append_nil, List.flatMap_append, List.flatMap_singleton]
    exact h.locals
  lexemes s hs := by
    obtain ⟨last, outer, ended, closed⟩ := h.closes hn used hs
    have lexemes := h.lexemes _ (Surroundings.names_of_opened hn hs)
    rw [State.lexemes, ended] at lexemes
    rw [closed, localsAt_eq_nil h.deep, List.map_nil, modifyHead_append_nil]
    exact (List.cons.inj lexemes).2
  read s hs distance height hd x := by
    obtain ⟨last, outer, ended, closed⟩ := h.closes hn used hs
    have further : height + (distance + 1) = (S.opened names).levels.length := congrArg (· + 1) hd
    have read := h.read _ (Surroundings.names_of_opened hn hs) further x
    rw [ended] at read
    rw [closed]
    exact read
  unused s hs := by
    obtain ⟨last, outer, -, closed⟩ := h.closes hn used hs
    rw [closed, unusedOf_append, h.unused _ (Surroundings.names_of_opened hn hs), List.flatMap_append,
      List.append_assoc, List.flatMap_singleton, Extent.unusedOf_unused]
    rfl

end InScope

theorem declaring {name : Lexeme} {initial : Option (Expr RefId)}
    (h : Settles (S.declare [name.text]) [] ms es p) :
    Settles S [name.text] (⟨.declaration name initial, S⟩ :: ms) es (declaring name p) where
  toDeclares := h.toDeclares.declaring
  deep := List.forall_mem_cons.mpr ⟨Nat.le_refl _, S.length_declare [name.text] ▸ h.deep⟩
  placed := List.forall_mem_cons.mpr ⟨fun _ above below => absurd above (Nat.not_lt.mpr below),
    S.length_declare [name.text] ▸ h.placed⟩
  locals := by
    have inside := h.locals
    rw [S.length_declare] at inside
    change (es.flatMap Extent.locals ++ _).Perm (([_] ++ ms).filter Mention.isLocal)
    rw [localsAt_cons _ _ ms, List.filter_append]
    refine (List.perm_append_comm_assoc _ _ _).trans (.append ?_ inside)
    simp [localsAt, List.filter_singleton]
  lexemes s hs := by
    have inside := h.lexemes _ (Surroundings.names_of_declared name hs)
    rw [S.length_declare, lexemes_declare hs initial, List.modifyHead_modifyHead] at inside
    refine (lexemes_define name _).trans (inside.trans ?_)
    rw [localsAt_cons _ _ ms, List.map_append]
    simp only [Function.comp_def, List.append_assoc]
  read s hs distance height hd x := by
    have declared := Surroundings.names_of_declared name hs
    have inside := h.read _ declared (hd.trans (S.length_declare _).symm) x
    rw [read_declare] at inside
    refine (read_define (h.names _ declared)).trans (inside.trans ?_)
    simp [Mention.readsAt, Word.reads]
  unused s hs := by
    change unusedOf (define name (p (declare name s).2).2).2.findings = _
    rw [findings_define, h.unused _ (Surroundings.names_of_declared name hs), findings_declare, hs,
      ← misplacements_declaration S name initial, unusedOf_append, unusedOf_misplacements,
      List.append_nil]

/-- A word that declares nothing. -/
theorem word {m : Mention} (hm : m.around = S) (declares : Declares S [] p) (other : m.isLocal = false)
    (lexemes : ∀ s, (p s).2.lexemes = s.lexemes)
    (read : ∀ s, s.names = S.names → ∀ {distance height}, height + distance = S.levels.length →
      ∀ x, Read (p s).2.scopes distance x ↔ Read s.scopes distance x ∨ m.readsAt x height)
    (unused : ∀ s, unusedOf (p s).2.findings = unusedOf s.findings) : Settles S [] [m] [] p where
  toDeclares := declares
  deep := List.forall_mem_singleton.mpr (hm ▸ Nat.le_refl _)
  placed := List.forall_mem_singleton.mpr fun _ above below =>
    absurd above (Nat.not_lt.mpr (hm ▸ below))
  locals := by simp [localsAt, other]
  lexemes s _ := by
    have none : localsAt S.levels.length [m] = [] := by simp [localsAt, other]
    rw [lexemes, none, List.map_nil, modifyHead_append_nil]
  read s hs _ _ hd x := by
    rw [read s hs hd, List.any_cons, List.any_nil, Bool.or_false]
  unused s _ := (unused s).trans (List.append_nil _).symm

/-- A word that neither declares nor reads. -/
theorem still {m : Mention} (hm : m.around = S) (moves : Moves p id) (other : m.isLocal = false)
    (reads : m.word.reads = false) (scopes : ∀ s, (p s).2.scopes = s.scopes)
    (findings : ∀ s, (p s).2.findings = s.findings ++ m.misplacements) : Settles S [] [m] [] p := by
  refine word hm (.of_moves moves) other (fun s => congrArg (List.map Scope.lexemes) (scopes s))
    (fun s _ _ _ _ x => ?_) fun s => ?_
  · simp [scopes s, Mention.readsAt, reads]
  · rw [findings, unusedOf_append, unusedOf_misplacements, List.append_nil]

theorem reading {m : Mention} (hm : m.around = S) (declares : Declares S [] p) (other : m.isLocal = false)
    (reads : m.word.reads = true) (scopes : ∀ s, (p s).2.scopes = markUsed m.word.lexeme.text s.scopes)
    (unused : ∀ s, unusedOf (p s).2.findings = unusedOf s.findings) : Settles S [] [m] [] p := by
  refine word hm declares other (fun s => ?_) (fun s hs distance height hd x => ?_) unused
  · rw [State.lexemes, scopes, lexemes_markUsed]
    rfl
  · have bound : binding? m.word.lexeme.text s.scopes = S.names.binding? m.word.lexeme.text :=
      hs ▸ (binding?_names _ _).symm
    have reached (b : Binding) : (b.distance + height == S.levels.length) = (b.distance == distance) := by
      rw [← hd, Nat.add_comm, Bool.eq_iff_iff, beq_iff_eq, beq_iff_eq, Nat.add_left_cancel_iff]
    rw [scopes, read_markUsed, bound, Mention.readsAt, reads, hm]
    simp only [reached, Bool.true_and, Bool.and_eq_true, beq_iff_eq]
    refine or_congr_right ?_
    constructor
    · rintro ⟨rfl, near⟩
      exact ⟨rfl, near⟩
    · rintro ⟨rfl, near⟩
      exact ⟨rfl, near⟩

theorem inherits (S : Surroundings) (id : RefId) (superclass name : Lexeme) :
    Settles S [] [⟨.inherit id superclass name, S⟩] [] (referAbove name id superclass) := by
  refine reading rfl (.referAbove name id superclass) rfl rfl (fun s => ?_) fun s => ?_
  · rw [referAbove_run, Alone.scopes_read]
    split <;> rfl
  · rw [referAbove_run, unusedOf_read]
    split
    · exact (unusedOf_append _ _).trans (List.append_nil _)
    · rfl

end Settles

theorem settles_closed : Judgment.Closed fun _ S ds ms es _ _ p => Settles S ds ms es p where
  pure S _ _ a _ := .pure S a
  bind hp hk := hp.bind hk
  within h := h.within
  block h := h.inScope rfl nofun
  own h := h.inScope rfl (List.forall_mem_singleton.mpr rfl)
  declaration _ h := h.declaring
  reads _ id name := .reading rfl (.of_moves (Moves.read id name)) rfl rfl (Alone.scopes_read id name)
    (unusedOf_read id name)
  assigns S id name := .still rfl (Moves.bindRef id name) rfl rfl (fun _ => rfl) fun _ => by
    rw [misplacements_assign, List.append_nil]
    rfl
  this S id keyword := .still rfl (.referThis S.context id keyword) rfl rfl
    (scopes_checkThis S.context keyword) fun _ =>
      misplacements_this S id keyword ▸ findings_checkThis S.context keyword _
  super S id keyword := .still rfl (.referSuper S.context id keyword) rfl rfl
    (scopes_checkSuper S.context keyword) fun _ =>
      misplacements_super S id keyword ▸ findings_checkSuper S.context keyword _
  inherits := .inherits
  returns S keyword hasValue := .still rfl (Moves.checkReturn _ keyword hasValue) rfl rfl
    (scopes_checkReturn S.context keyword hasValue) fun _ =>
      misplacements_return S keyword hasValue ▸ findings_checkReturn S.context keyword hasValue _
  breaks S keyword := .still rfl (Moves.checkBreak _ keyword) rfl rfl
    (scopes_checkBreak S.context keyword) fun _ =>
      misplacements_break S keyword ▸ findings_checkBreak S.context keyword _

/-- Whether they are warnings or errors, findings about unused variables are reported once. -/
theorem unusedOf_reported (r : Resolution) (unused : Severity) :
    unusedOf (r.errors unused ++ r.warnings unused) = unusedOf r.findings := by
  simp only [unusedOf, Resolution.errors, Resolution.warnings, Resolution.isError, bne,
    List.filter_append, List.filter_filter]
  cases unused with
  | warning =>
    have differ : (Severity.warning == .error) = false := rfl
    simp [differ]
  | error => simp

/-- The local variables of a program that no word reads are reported as unused, each once and at its
declaration, and nothing else is. The words that declare the variables of the scopes are those that
declare local variables anywhere in the program, and each word is in the scopes around it. -/
theorem unused_exact (p : List (Stmt RefId)) (unused : Severity) :
    unusedOf ((resolve p).errors unused ++ (resolve p).warnings unused) =
        (Stmt.extentsAll {} p).flatMap Extent.unused ∧
      ((Stmt.extentsAll {} p).flatMap Extent.locals).Perm
        ((Stmt.mentionsAll {} p).filter Mention.isLocal) ∧
      ∀ m ∈ Stmt.mentionsAll {} p, ∀ height, 0 < height → height ≤ m.around.levels.length →
        ∃ E ∈ Stmt.extentsAll {} p, E.height = height ∧ m ∈ E.words := by
  have settled := Stmt.resolveAll_judged settles_closed {} p
  refine ⟨?_, ?_, settled.placed⟩
  · rw [unusedOf_reported]
    exact settled.unused {} rfl
  · have locals : (_ ++ localsAt 0 (Stmt.mentionsAll {} p)).Perm _ := settled.locals
    rwa [localsAt_zero, List.append_nil] at locals

/-- A lambda reads the inner one of two variables, and the outer one is only assigned to. -/
example :
    let outer : Lexeme := ⟨"x", 1⟩
    let inner : Lexeme := ⟨"x", 2⟩
    let lambda : Expr RefId := .lambda 2 ⟨[], [.return ⟨"return", 2⟩ (some (.variable 0 ⟨"x", 2⟩))]⟩
    (Stmt.extentsAll {} [.block [.var outer none, .expr (.assign 1 ⟨"x", 1⟩ (.literal .nil)),
      .block [.var inner none, .expr lambda]]]).flatMap Extent.unused = [⟨.unusedVariable, outer⟩] := by
  decide

end Scoping

end Lox
