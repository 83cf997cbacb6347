import Lox.Proofs.Scoping.Bound
import Lox.Source

/-!
Initial values. While the initial value of a local variable is computed the variable waits: nothing has
read it. The first word that reads it ends this, and where nothing is wrong with the program that word
stands in a lambda.
-/

namespace Lox

namespace Scoping

/-- The scope that lies so far out has a variable of this name that waits for its initial value. -/
def Waits (scopes : List Scope) (distance : Nat) (name : String) : Prop :=
  ∃ v, (scopes[distance]?.bind (·.lookup? name)) = some v ∧ v.usage = .declared

/-- The word reads the variable of this name that is in the scope of this height, counted from the
outermost scope. -/
def Mention.readsAt (m : Mention) (name : String) (height : Nat) : Bool :=
  m.word.reads && m.word.lexeme.text == name &&
    (m.around.names.binding? name).any (·.distance + height == m.around.levels.length)

section Waits

variable {scopes outer : List Scope} {scope : Scope} {distance : Nat} {name x : String}

theorem lookup?_cons (v : Variable) (scope : Scope) (x : String) :
    Scope.lookup? (v :: scope) x = if v.name.text = x then some v else scope.lookup? x := by
  by_cases h : v.name.text = x <;> simp [Scope.lookup?, h]

theorem lookup?_setUsage_of_ne (h : x ≠ name) (scope : Scope) (usage : Usage) :
    (scope.setUsage name usage).lookup? x = scope.lookup? x := by
  induction scope with
  | nil => rfl
  | cons v vs ih =>
    rw [Scope.setUsage, List.map_cons, lookup?_cons, lookup?_cons, ← ih]
    by_cases hv : v.name.text = name
    · have other : v.name.text ≠ x := fun he => h (he ▸ hv)
      simp [hv, hv ▸ other, Scope.setUsage]
    · simp [hv, Scope.setUsage]

theorem lookup?_define_of_ne (h : x ≠ name) (scope : Scope) :
    (scope.define name).lookup? x = scope.lookup? x := by
  rw [Scope.define]
  split
  · exact lookup?_setUsage_of_ne h scope .defined
  · rfl

theorem lookup?_append {v : Variable} (h : scope.lookup? x = some v) (more : Scope) :
    Scope.lookup? (scope ++ more) x = some v := by
  rw [Scope.lookup?] at h ⊢
  rw [List.find?_append, h, Option.some_or]

theorem isSome_lookup? (scope : Scope) (x : String) : (scope.lookup? x).isSome ↔ x ∈ scope.names := by
  simp [Scope.lookup?, Scope.names, List.find?_isSome]

/-- A change of the innermost scope. -/
theorem Waits.innermost {scope' : Scope} (h : Waits (scope :: outer) distance x)
    (kept : distance = 0 → ∀ v, scope.lookup? x = some v → scope'.lookup? x = some v) :
    Waits (scope' :: outer) distance x := by
  cases distance with
  | zero =>
    obtain ⟨v, hv, waiting⟩ := h
    exact ⟨v, kept rfl v hv, waiting⟩
  | succ distance => exact h

/-- To read a variable changes no variable of another name. -/
theorem Waits.markUsed_of_ne (h : Waits scopes distance x) (hx : x ≠ name) :
    Waits (markUsed name scopes) distance x := by
  induction scopes generalizing distance with
  | nil => exact h
  | cons scope outer ih =>
    rw [markUsed]
    split
    · exact h.innermost fun _ v hv => (lookup?_setUsage_of_ne hx scope .used).trans hv
    · cases distance with
      | zero => exact h
      | succ distance => exact ih h

/-- To read a variable changes it in the innermost scope that has it. -/
theorem Waits.markUsed_of_distance {b : Binding} (h : Waits scopes distance name)
    (hb : binding? name scopes = some b) (hd : b.distance ≠ distance) :
    Waits (markUsed name scopes) distance name := by
  induction scopes generalizing distance b with
  | nil => exact h
  | cons scope outer ih =>
    rw [binding?] at hb
    rw [markUsed]
    cases hs : scope.slot? name with
    | some slot =>
      rw [hs] at hb
      obtain rfl : ⟨0, slot⟩ = b := Option.some.inj hb
      exact h.innermost fun hz => absurd hz.symm hd
    | none =>
      rw [hs] at hb
      obtain ⟨further, hf, rfl⟩ := Option.map_eq_some_iff.mp hb
      cases distance with
      | zero => exact h
      | succ distance => exact ih h hf fun he => hd (congrArg (· + 1) he)

theorem Waits.opened (h : Waits scopes distance x) (scope : Scope) :
    Waits (scope :: scopes) (distance + 1) x := h

theorem Waits.bound (h : Waits scopes distance x) : ∃ b, binding? x scopes = some b := by
  induction scopes generalizing distance with
  | nil =>
    obtain ⟨v, hv, -⟩ := h
    cases hv
  | cons scope outer ih =>
    rw [binding?]
    cases hs : scope.slot? x with
    | some slot => exact ⟨_, rfl⟩
    | none =>
      cases distance with
      | zero =>
        obtain ⟨v, hv, -⟩ := h
        have known := (isSome_lookup? scope x).mp (Option.isSome_of_eq_some hv)
        rw [← scope.isSome_slot?, hs] at known
        cases known
      | succ distance =>
        obtain ⟨b, hb⟩ := ih h
        exact ⟨_, congrArg (Option.map _) hb⟩

variable {s : State} {d : Lexeme}

theorem Waits.declare (h : Waits s.scopes distance x) (d : Lexeme) :
    Waits (declare d s).2.scopes distance x := by
  rw [declare_run]
  obtain ⟨_ | ⟨scope, outer⟩, fs⟩ := s
  · exact h
  · dsimp only
    split
    · exact h
    · exact Waits.innermost h fun _ v hv => lookup?_append hv _

/-- A variable that is declared without fault waits. -/
theorem waits_declared (hs : s.scopes ≠ []) (clean : Clean (Scoping.declare d s).2.findings) :
    Waits (Scoping.declare d s).2.scopes 0 d.text := by
  have fresh := fresh_of_clean clean
  rw [declare_run]
  obtain ⟨_ | ⟨scope, outer⟩, fs⟩ := s
  · exact absurd rfl hs
  · have unknown : scope.lookup? d.text = none :=
      Option.not_isSome_iff_eq_none.mp ((isSome_lookup? scope d.text).not.mpr fresh)
    dsimp only
    rw [if_neg fresh]
    refine ⟨⟨d, .declared⟩, ?_, rfl⟩
    change Scope.lookup? (scope ++ [⟨d, .declared⟩]) d.text = _
    rw [Scope.lookup?] at unknown ⊢
    simp [unknown]

/-- The end of an initial value concerns its own variable. -/
theorem Waits.define (h : Waits s.scopes distance x) (hx : distance = 0 → x ≠ d.text) :
    Waits (define d s).2.scopes distance x := by
  obtain ⟨_ | ⟨scope, outer⟩, fs⟩ := s
  · exact h
  · exact Waits.innermost h fun hz v hv => (lookup?_define_of_ne (hx hz) scope).trans hv

/-- A variable that waits in the innermost scope hinders the declaration of another one of its name. -/
theorem Waits.ne_of_fresh (h : Waits s.scopes 0 x) (fresh : s.names.Fresh d.text) : x ≠ d.text := by
  rintro rfl
  obtain ⟨_ | ⟨scope, outer⟩, fs⟩ := s
  · obtain ⟨v, hv, -⟩ := h
    cases hv
  · obtain ⟨v, hv, -⟩ := h
    exact fresh ((isSome_lookup? scope d.text).mp (Option.isSome_of_eq_some hv))

end Waits

/-- The first word in the initial value of a local variable that reads the variable stands in a scope
further in, if there is such a word. -/
def Mention.Deferred (m : Mention) : Prop :=
  ∀ x e, m.word = .declaration x (some e) → m.around.levels ≠ [] → ∀ r,
    (e.mentions (m.around.declare [x.text])).find? (·.readsAt x.text m.around.levels.length) = some r →
      m.around.levels.length < r.around.levels.length

variable {α β : Type}

/-- Where nothing is found wrong, variables that wait go on doing so until a word further in reads
them, and it is the same with the variables that are declared on the way. -/
structure Defers (S : Surroundings) (ds : List String) (ms : List Mention) (p : Scoping α) : Prop
    extends Declares S ds p where
  findings : ∀ s, s.findings <+: (p s).2.findings
  quiet : ∀ s, s.names = S.names → Clean (p s).2.findings → ∀ {distance name},
    Waits s.scopes distance name → ∀ {height}, height + distance = S.levels.length →
      ms.find? (·.readsAt name height) = none → Waits (p s).2.scopes distance name
  first : ∀ s, s.names = S.names → Clean (p s).2.findings → ∀ {distance name},
    Waits s.scopes distance name → ∀ {height}, height + distance = S.levels.length →
      ∀ {m}, ms.find? (·.readsAt name height) = some m → height < m.around.levels.length
  own : ∀ s, s.names = S.names → Clean (p s).2.findings → ∀ m ∈ ms, m.Deferred

namespace Defers

variable {S : Surroundings} {ds ds' : List String} {ms ms' : List Mention} {p : Scoping α}
  {k : α → Scoping β}

theorem bind (hp : Defers S ds ms p) (hk : ∀ a, Defers (S.declare ds) ds' ms' (k a)) :
    Defers S (ds ++ ds') (ms ++ ms') (p >>= k) where
  toDeclares := hp.toDeclares.bind fun a => (hk a).toDeclares
  findings s := (hp.findings s).trans ((hk (p s).1).findings (p s).2)
  quiet s hs clean _ _ waits _ height unread := by
    rw [List.find?_append, Option.or_eq_none_iff] at unread
    have before := clean.of_prefix ((hk (p s).1).findings (p s).2)
    exact (hk (p s).1).quiet (p s).2 (hp.names s hs) clean (hp.quiet s hs before waits height unread.1)
      (height.trans (S.length_declare ds).symm) unread.2
  first s hs clean _ _ waits _ height _ read := by
    rw [List.find?_append, Option.or_eq_some_iff] at read
    have before := clean.of_prefix ((hk (p s).1).findings (p s).2)
    obtain read | ⟨unread, read⟩ := read
    · exact hp.first s hs before waits height read
    · exact (hk (p s).1).first (p s).2 (hp.names s hs) clean (hp.quiet s hs before waits height unread)
        (height.trans (S.length_declare ds).symm) read
  own s hs clean m hm := by
    have before := clean.of_prefix ((hk (p s).1).findings (p s).2)
    obtain hm | hm := List.mem_append.mp hm
    · exact hp.own s hs before m hm
    · exact (hk (p s).1).own (p s).2 (hp.names s hs) clean m hm

theorem within {frame : Frame} (h : Defers (S.within frame) ds ms p) : Defers S ds ms p :=
  ⟨h.toDeclares.within, h.findings, h.quiet, h.first, h.own⟩

theorem inScope {scope : Scope} {names : List String} (h : Defers (S.opened names) ds ms p)
    (hn : scope.names = names.eraseDups) : Defers S [] ms (inScope scope p) where
  toDeclares := h.toDeclares.inScope hn
  findings s := by
    refine (h.findings (s.opened scope)).trans ?_
    rw [inScope_run]
    split
    · exact List.prefix_rfl
    · exact List.prefix_append _ _
  quiet s hs clean _ _ waits _ height unread := by
    obtain ⟨last, outer, ended, -, closed⟩ := h.toDeclares.closes hn hs
    rw [closed] at clean ⊢
    have inside := h.quiet (s.opened scope) (Surroundings.names_of_opened hn hs)
      (clean.of_prefix (List.prefix_append _ _)) (waits.opened scope) (congrArg (· + 1) height) unread
    rw [ended] at inside
    exact inside
  first s hs clean _ _ waits _ height _ read := by
    obtain ⟨last, outer, -, -, closed⟩ := h.toDeclares.closes hn hs
    rw [closed] at clean
    exact h.first (s.opened scope) (Surroundings.names_of_opened hn hs)
      (clean.of_prefix (List.prefix_append _ _)) (waits.opened scope) (congrArg (· + 1) height) read
  own s hs clean m hm := by
    obtain ⟨last, outer, -, -, closed⟩ := h.toDeclares.closes hn hs
    rw [closed] at clean
    exact h.own (s.opened scope) (Surroundings.names_of_opened hn hs)
      (clean.of_prefix (List.prefix_append _ _)) m hm

/-- What is known between the declaration of a name and the end of its initial value. -/
theorem declared {name : Lexeme} (h : Defers (S.declare [name.text]) [] ms p) {s : State}
    (clean : Clean (Scoping.declaring name p s).2.findings) :
    Clean (p (declare name s).2).2.findings ∧ Clean (declare name s).2.findings := by
  have inside : Clean (p (declare name s).2).2.findings :=
    clean.of_prefix ((Moves.define name).findings _)
  exact ⟨inside, inside.of_prefix (h.findings _)⟩

theorem declaring {name : Lexeme} {initial : Option (Expr RefId)}
    (hi : ∀ e, initial = some e → ms = e.mentions (S.declare [name.text]))
    (h : Defers (S.declare [name.text]) [] ms p) :
    Defers S [name.text] (⟨.declaration name initial, S⟩ :: ms) (declaring name p) where
  toDeclares := h.toDeclares.declaring
  findings s := ((Moves.declare name).findings s).trans ((h.findings _).trans
    ((Moves.define name).findings _))
  quiet s hs clean distance x waits _ height unread := by
    obtain ⟨inside, before⟩ := h.declared clean
    have waiting := h.quiet _ (Surroundings.names_of_declared name hs) inside (waits.declare name)
      (height.trans (S.length_declare _).symm) unread
    refine waiting.define fun hz => ?_
    subst hz
    exact waits.ne_of_fresh (fresh_of_clean before)
  first s hs clean _ _ waits _ height _ read :=
    h.first _ (Surroundings.names_of_declared name hs) (h.declared clean).1 (waits.declare name)
      (height.trans (S.length_declare _).symm) read
  own s hs clean m hm := by
    obtain ⟨inside, before⟩ := h.declared clean
    obtain rfl | hm := List.mem_cons.mp hm
    · rintro x e ⟨rfl, rfl⟩ nonempty r read
      have opened : s.scopes ≠ [] := by
        rintro he
        rw [State.names, he, Surroundings.names, List.map_nil] at hs
        exact nonempty (List.map_eq_nil_iff.mp hs.symm)
      rw [← hi e rfl] at read
      exact h.first _ (Surroundings.names_of_declared name hs) inside (waits_declared opened before)
        (S.length_declare _).symm read
    · exact h.own _ (Surroundings.names_of_declared name hs) inside m hm

/-- A word that reads nothing. -/
theorem still {m : Mention} {p : Scoping α} (moves : Moves p id)
    (scopes : ∀ s, (p s).2.scopes = s.scopes) (reads : m.word.reads = false)
    (initial : ∀ x e, m.word ≠ .declaration x (some e)) : Defers S [] [m] p where
  toDeclares := .of_moves moves
  findings := moves.findings
  quiet s _ _ _ _ waits _ _ := by
    rw [scopes]
    exact fun _ => waits
  first s _ _ _ _ _ _ _ _ read := by
    simp [Mention.readsAt, reads] at read
  own s _ _ m hm := by
    obtain rfl := List.mem_singleton.mp hm
    exact fun x e he => absurd he (initial x e)

/-- A word that reads, which is wrong where its variable waits in the innermost scope. -/
theorem reading {m : Mention} {p : Scoping α} (hm : m.around = S) (declares : Declares S [] p)
    (findings : ∀ s, s.findings <+: (p s).2.findings)
    (scopes : ∀ s, (p s).2.scopes = markUsed m.word.lexeme.text s.scopes)
    (wrong : ∀ s, Waits s.scopes 0 m.word.lexeme.text → ¬ Clean (p s).2.findings)
    (reads : m.word.reads = true) : Defers S [] [m] p where
  toDeclares := declares
  findings := findings
  quiet s hs _ distance x waits height hl unread := by
    rw [scopes]
    by_cases hx : x = m.word.lexeme.text
    · subst hx
      obtain ⟨b, hb⟩ := waits.bound
      have bound : S.names.binding? m.word.lexeme.text = some b :=
        hs ▸ (binding?_names _ _).trans hb
      refine waits.markUsed_of_distance hb fun hd => ?_
      simp [Mention.readsAt, reads, bound, hm, ← hl, hd, Nat.add_comm distance] at unread
    · exact waits.markUsed_of_ne hx
  first s _ clean distance x waits height hl r read := by
    obtain ⟨here, rfl⟩ : m.readsAt x height = true ∧ m = r := by
      simpa [List.find?_singleton] using read
    have hx : m.word.lexeme.text = x := by
      simp only [Mention.readsAt, Bool.and_eq_true, beq_iff_eq] at here
      exact here.1.2
    have further : distance ≠ 0 := by
      rintro rfl
      exact wrong s (hx ▸ waits) clean
    rw [hm]
    omega
  own s _ _ m hm x e he := by
    obtain rfl := List.mem_singleton.mp hm
    rw [he] at reads
    cases reads

theorem read_wrong {id : RefId} {name : Lexeme} {s : State} (h : Waits s.scopes 0 name.text) :
    ¬ Clean (read id name s).2.findings := by
  obtain ⟨_ | ⟨scope, outer⟩, fs⟩ := s
  · obtain ⟨v, hv, -⟩ := h
    cases hv
  · obtain ⟨⟨declaration, usage⟩, hv, rfl⟩ := h
    have found : scope.lookup? name.text = some ⟨declaration, .declared⟩ := hv
    rw [read_run]
    simp only [List.head?_cons, Option.bind_some, found]
    exact fun clean => nomatch clean _ (List.mem_append_right fs List.mem_cons_self)

theorem reads (S : Surroundings) (id : RefId) (name : Lexeme) :
    Defers S [] [⟨.read id name, S⟩] (read id name) :=
  reading rfl (.of_moves (Moves.read id name)) (Moves.read id name).findings (Alone.scopes_read id name)
    (fun _ => read_wrong) rfl

theorem inherits (S : Surroundings) (id : RefId) (superclass name : Lexeme) :
    Defers S [] [⟨.inherit id superclass name, S⟩] (referAbove name id superclass) := by
  refine reading rfl (.referAbove name id superclass) (fun s => ?_) (fun s => ?_) (fun s waits => ?_) rfl
  · rw [referAbove_run]
    split
    · exact ((Moves.note .inheritsFromItself superclass).findings s).trans
        ((Moves.read id superclass).findings _)
    · exact (Moves.read id superclass).findings s
  · rw [referAbove_run, Alone.scopes_read]
    split <;> rfl
  · rw [referAbove_run]
    split
    · exact read_wrong waits
    · exact read_wrong waits

end Defers

theorem defers_closed : Judgment.Closed fun _ S ds ms _ _ _ p => Defers S ds ms p where
  pure _ _ _ a _ := ⟨.of_moves (.pure a), fun _ => List.prefix_rfl, fun _ _ _ _ _ waits _ _ _ => waits,
    fun _ _ _ _ _ _ _ _ _ read => (nomatch read), fun _ _ _ _ hm => (nomatch hm)⟩
  bind hp hk := hp.bind hk
  within h := h.within
  block h := h.inScope rfl
  own h := h.inScope rfl
  declaration hi h := h.declaring hi
  reads := .reads
  assigns _ id name := .still (Moves.bindRef id name) (fun _ => rfl) rfl nofun
  this S id keyword := .still (.referThis S.context id keyword)
    (scopes_checkThis S.context keyword) rfl nofun
  super S id keyword := .still (.referSuper S.context id keyword)
    (scopes_checkSuper S.context keyword) rfl nofun
  inherits := .inherits
  returns S keyword hasValue := .still (Moves.checkReturn _ keyword hasValue)
    (scopes_checkReturn S.context keyword hasValue) rfl nofun
  breaks S keyword := .still (Moves.checkBreak _ keyword) (scopes_checkBreak S.context keyword) rfl nofun

/-- A word outside of all lambdas in an initial value is in the scope of the variable. -/
theorem readsAt_own {S : Surroundings} {x name : Lexeme} (hl : S.levels ≠ []) (hn : name.text = x.text)
    (id : RefId) :
    Mention.readsAt ⟨.read id name, S.declare [x.text]⟩ x.text S.levels.length := by
  obtain ⟨_ | ⟨names, outer⟩, frames⟩ := S
  · exact absurd rfl hl
  · have bound : Names.binding? x.text ((names ++ [x.text]).eraseDups :: outer.map List.eraseDups) =
        some ⟨0, (names ++ [x.text]).eraseDups.idxOf x.text⟩ := by
      rw [Names.binding?_cons, if_pos (by simp)]
    simp [Mention.readsAt, Word.reads, Word.lexeme, hn, Surroundings.names, Surroundings.declare, bound]

/-- In an accepted program a word that reads a local variable in its own initial value, outside of
lambdas, comes behind one that reads the variable in a lambda. -/
theorem own_initializer_read_behind_lambda {p : List (Stmt RefId)} {unused : Severity}
    (accepted : (resolve p).errors unused = []) {x : Lexeme} {e : Expr RefId} {S : Surroundings}
    (hm : ⟨.declaration x (some e), S⟩ ∈ Stmt.mentionsAll {} p) (hl : S.levels ≠ [])
    {id : RefId} {name : Lexeme} (hn : name.text = x.text) {before after : List Mention}
    (direct : e.mentions (S.declare [x.text]) =
      before ++ ⟨.read id name, S.declare [x.text]⟩ :: after) :
    ∃ r ∈ before, r.readsAt x.text S.levels.length ∧ S.levels.length < r.around.levels.length := by
  let reads (m : Mention) := m.readsAt x.text S.levels.length
  have deferred : ∀ r, (before ++ ⟨.read id name, S.declare [x.text]⟩ :: after).find? reads = some r →
      S.levels.length < r.around.levels.length :=
    direct ▸ (Stmt.resolveAll_judged defers_closed {} p).own {} rfl (Clean.of_errors accepted) _ hm x e
      rfl hl
  have own := List.find?_cons_of_pos (p := reads) (l := after) (readsAt_own hl hn id)
  rw [List.find?_append, own] at deferred
  cases hr : before.find? reads with
  | none =>
    rw [hr] at deferred
    have further : S.levels.length < (S.declare [x.text]).levels.length := deferred _ rfl
    rw [S.length_declare] at further
    exact absurd further (Nat.lt_irrefl _)
  | some r =>
    rw [hr] at deferred
    exact ⟨r, List.mem_of_find?_eq_some hr, List.find?_some (p := reads) hr, deferred r rfl⟩

theorem own_initializer_lambda_reads_first :
    let x : Lexeme := ⟨"x", 1⟩
    let lambda : Expr RefId := .lambda 1 ⟨[], [.return ⟨"return", 1⟩ (some (.variable 0 x))]⟩
    let e : Expr RefId := .binary .equal ⟨"==", 1⟩ lambda (.variable 1 x)
    let p : List (Stmt RefId) := [.block [.var x (some e)]]
    (resolve p).errors .warning = [] ∧ ∃ r ∈ lambda.mentions ⟨[["x"]], []⟩,
      r.readsAt "x" 1 ∧ 1 < r.around.levels.length := by
  intro x lambda e p
  have accepted : (resolve p).errors .warning = [] := by decide
  have declared : ⟨.declaration x (some e), ⟨[[]], []⟩⟩ ∈ Stmt.mentionsAll {} p :=
    List.mem_of_getElem? (i := 0) rfl
  have direct : e.mentions ⟨[["x"]], []⟩ = lambda.mentions ⟨[["x"]], []⟩ ++
      ⟨.read 1 x, Surroundings.declare ⟨[[]], []⟩ ["x"]⟩ :: [] := rfl
  exact ⟨accepted,
    own_initializer_read_behind_lambda accepted declared (List.cons_ne_nil _ _) rfl direct⟩

/-- In the initial value of a local variable, outside of lambdas, stands a word that reads it. -/
def Mention.readsItself (m : Mention) : Bool :=
  match m.word with
  | .declaration x (some e) => !m.around.levels.isEmpty &&
      (e.mentions (m.around.declare [x.text])).any fun r =>
        r.word.reads && r.word.lexeme.text == x.text && r.around == m.around.declare [x.text]
  | _ => false

/-- A lambda may be there that takes the fault away. -/
theorem own_initializer_read_accepted :
    let p := parse (scan "{ var x = (fun () { return x; }) == x; print x; }").tokens 0
    p.errors = [] ∧ (resolve p.statements).errors .error = [] ∧
      (Stmt.mentionsAll {} p.statements).any Mention.readsItself := by
  decide +kernel

end Scoping

end Lox
