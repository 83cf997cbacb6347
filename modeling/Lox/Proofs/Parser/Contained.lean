import Lox.Proofs.Cursor.EndMark
import Lox.Proofs.Grammar.Accepted
import Lox.Proofs.Grammar.Derived
import Lox.Proofs.Parser.Fenced
import Lox.Proofs.Parser.Shift

/-!
Faults are contained. A faulty statement that a semicolon ends is complained about as if it stood
alone, and the program behind the semicolon is read as if it did.
-/

namespace Lox

namespace Parser

variable {α : Type} {ts : List Token} {k : RefId} {fs : List Fault} {depth : Nat}

/-- With enough depth, reading declarations comes to an answer. -/
theorem sequence_finishes (proper : ∀ t ∈ ts, t.kind ≠ .eof) (deep : 32 * ts.length + 21 ≤ depth)
    (k : RefId) (fs : List Fault) :
    ∃ ss s, parseWithin depth (.sequence false) ⟨ts, k, fs⟩ = .ok ss s := by
  let T : Cursor.Tape := ⟨ts, .eof 1, [], proper, rfl⟩
  have st : Cursor.Stands T ⟨T.tokens, 0, k, fs.map (·.toError 1), []⟩ ⟨ts, k, fs⟩ :=
    ⟨rfl, Nat.zero_le _, rfl, rfl, rfl⟩
  have agrees := Cursor.readWithin_agreeing (Nat.le_refl depth) (.sequence false) _ _ st nofun deep
  have reports := sequence_reports depth false ⟨ts, k, fs⟩
  generalize Cursor.readWithin depth (.sequence false) _ = r at agrees
  generalize parseWithin depth (.sequence false) ⟨ts, k, fs⟩ = r' at agrees reports
  cases agrees with
  | answer => exact ⟨_, _, rfl⟩
  | fault => exact absurd rfl (reports _ _)

/-- Declarations without faults are read alike whatever was complained about before. -/
theorem sequence_again {ss : List (Stmt RefId)} {s : State}
    (h : parseWithin depth (.sequence false) ⟨ts, k, fs⟩ = .ok ss s) (hf : s.faults = fs)
    (proper : ∀ t ∈ ts, t.kind ≠ .eof) {depth' : Nat} (deep : 32 * ts.length + 21 ≤ depth')
    (gs : List Fault) :
    parseWithin depth' (.sequence false) ⟨ts, k, gs⟩ = .ok ss ⟨[], s.nextId, gs⟩ := by
  have shows := Grammar.parseWithin_shows depth (.sequence false) ⟨ts, k, fs⟩
  simp only [Faultless, h] at shows
  obtain ⟨us, o, hus, derives, -⟩ := shows.2 hf
  rw [rest_sequence h, List.append_nil] at hus
  obtain rfl : ts = us := hus
  have answers := derives.completes false [] rfl gs depth'
  rw [List.append_nil] at answers
  obtain answers | ⟨t, tooDeep⟩ := answers
  · exact answers
  · obtain ⟨ss, s, finishes⟩ := sequence_finishes proper deep k gs
    cases finishes.symm.trans tooDeep

variable {F : Fence} {xs : List Token}

/-- Where no other statement may start before, reading goes on behind the semicolon. -/
theorem resume_fence (plain : ∀ t ∈ xs, Plain t)
    (starts : ∀ t ∈ xs.tail, t.kind.startsStatement = false) (us : List Token) :
    resume (xs ++ F.sign :: us) = us := by
  induction xs with
  | nil => simp [resume, F.isSign]
  | cons t xs ih =>
    have notSign : t.kind ≠ .semicolon := (plain t List.mem_cons_self).1
    have next : (xs ++ F.sign :: us).head?.any (·.kind.startsStatement) = false := by
      cases xs with
      | nil => simp [F.isSign, Token.Kind.startsStatement]
      | cons u xs => simpa using starts u List.mem_cons_self
    have later := ih (fun u hu => plain u (List.mem_cons_of_mem t hu))
      fun u hu => starts u (List.mem_of_mem_tail hu)
    rw [List.cons_append, resume, next, if_neg (by simpa using notSign), later]

/-- The outcomes of one declaration on both texts, of which each ends behind the semicolon. -/
inductive Contained (F : Fence) :
    EStateM.Result Stop State α → EStateM.Result Stop State α → Prop
  | answer {a : α} {k : RefId} {fs : List Fault} (placed : Placed fs) :
      Contained F (.ok a ⟨F.beyond, k, fs⟩) (.ok a ⟨F.beyond', k, fs⟩)
  | tooDeep {s : State} {r : EStateM.Result Stop State α} : Contained F (.error .tooDeep s) r

theorem Contained.of_ok {a : α} {s : State} {r : EStateM.Result Stop State α}
    (h : Contained F (.ok a s) r) : ∃ k fs, Placed fs ∧ s = ⟨F.beyond, k, fs⟩ ∧
      r = .ok a ⟨F.beyond', k, fs⟩ := by
  cases h with
  | answer placed => exact ⟨_, _, placed, rfl, rfl⟩

theorem Reads.recover {p q : Parser α} (h : Reads F true p q) (plain : ∀ t ∈ xs, Plain t)
    (starts : ∀ t ∈ xs.tail, t.kind.startsStatement = false) (placed : Placed fs) :
    Contained F (recover p (F.first xs k fs)) (recover q (F.second xs k fs)) := by
  have run := h xs plain k fs placed
  rw [recover_run, recover_run]
  generalize p (F.first xs k fs) = r at run
  generalize q (F.second xs k fs) = r' at run
  cases run with
  | behind placed => exact .answer placed
  | @fault _ t complaint ys k fs rest placed =>
    have tail : ys.tail ⊆ xs.tail := by
      obtain ⟨_ | ⟨u, us⟩, rfl⟩ := rest
      · exact List.Subset.refl _
      · exact fun v hv => List.mem_append_right us (List.mem_of_mem_tail hv)
    have resumed (us : List Token) : resume (ys ++ F.sign :: us) = us :=
      resume_fence (fun t ht => plain t (rest.subset ht)) (fun t ht => starts t (tail ht)) us
    simp only [Fence.first, Fence.second, resumed]
    exact .answer (placed.append t complaint)
  | tooDeep => exact .tooDeep

theorem declaration_contained {depth' : Nat} (hd : depth ≤ depth') (plain : ∀ t ∈ xs, Plain t)
    (starts : ∀ t ∈ xs.tail, t.kind.startsStatement = false) (placed : Placed fs) :
    Contained F (parseWithin depth .declaration (F.first xs k fs))
      (parseWithin depth' .declaration (F.second xs k fs)) := by
  cases depth with
  | zero => exact .tooDeep
  | succ depth =>
    obtain ⟨depth', rfl⟩ := Nat.exists_eq_succ_of_ne_zero (Nat.ne_zero_of_lt hd)
    have reads := parseWithin_reads F (Nat.le_of_succ_le_succ hd)
    exact (declaration_reads reads).recover plain starts placed

/-- What is read of a statement and the semicolon alone is read of them in front of a program, too, and
then the program is read. -/
theorem sequence_contained {b p : List Token} {sign : Token} (hsign : sign.kind = .semicolon)
    (hp : ∀ t ∈ p.head?, t.kind ≠ .else) (plain : ∀ t ∈ b, Plain t)
    (starts : ∀ t ∈ b.tail, t.kind.startsStatement = false) {ss : List (Stmt RefId)} {s : State}
    (alone : parseWithin depth (.sequence false) ⟨b ++ [sign], k, []⟩ = .ok ss s) :
    Placed s.faults ∧ ∀ {depth' : Nat} {ss' : List (Stmt RefId)} {s' : State},
      parseWithin depth' (.sequence false) ⟨p, s.nextId, s.faults⟩ = .ok ss' s' → depth ≤ depth' + 1 →
      parseWithin (depth' + 1) (.sequence false) ⟨b ++ sign :: p, k, []⟩ = .ok (ss ++ ss') s' := by
  have nonempty (us : List Token) : b ++ sign :: us ≠ [] :=
    List.append_ne_nil_of_right_ne_nil b (List.cons_ne_nil sign us)
  let F : Fence := ⟨sign, hsign, [], p, fun t ht => absurd ht (Option.not_mem_none t), hp⟩
  obtain _ | depth := depth
  · cases alone
  · rw [parseWithin, production, sequence_cons _ (nonempty [])] at alone
    obtain ⟨first, s₁, hfirst, alone⟩ := bind_ok alone
    obtain ⟨others, s₂, hothers, alone⟩ := bind_ok alone
    injection alone with hss hs
    subst hss hs
    have contained {depth' : Nat} (hd : depth ≤ depth') : Contained F (.ok first s₁)
        (parseWithin depth' .declaration ⟨b ++ sign :: p, k, []⟩) := by
      rw [← hfirst]
      exact declaration_contained (F := F) hd plain starts fun _ hf => absurd hf List.not_mem_nil
    obtain ⟨j, fs, placed, rfl, -⟩ := (contained (Nat.le_refl depth)).of_ok
    -- Nothing stands behind the semicolon, so nothing else is read.
    obtain ⟨rfl, rfl⟩ : others = [] ∧ s₂ = ⟨[], j, fs⟩ := by
      cases depth with
      | zero => cases hothers
      | succ depth =>
        injection hothers with hothers hs
        exact ⟨hothers.symm, hs.symm⟩
    refine ⟨placed, fun {depth' ss' s'} behind hd => ?_⟩
    obtain ⟨j', fs', -, same, within⟩ := (contained (Nat.le_of_succ_le_succ hd)).of_ok
    obtain ⟨-, rfl, rfl⟩ := State.mk.inj same
    have within : parseWithin depth' .declaration ⟨b ++ sign :: p, k, []⟩ =
      .ok first ⟨p, j, fs⟩ := within
    rw [parseWithin, production, sequence_cons _ (nonempty p), bind_of_ok within, bind_of_ok behind,
      List.append_nil]
    rfl

end Parser

/-- The program that is read, and the state that its reading ends in, whatever the tokens are. -/
theorem parse_answered {tokens body : List Token} {endLine : Nat}
    (ht : Token.untilEof tokens = (body, endLine)) (proper : ∀ t ∈ body, t.kind ≠ .eof)
    (first : RefId) : ∃ ss s,
      Parser.parseWithin (Parser.depthFor body.length) (.sequence false) ⟨body, first, []⟩ = .ok ss s ∧
      parse tokens first = ⟨ss, s.faults.map (·.toError endLine), s.nextId⟩ := by
  obtain ⟨ss, s, run⟩ := Parser.sequence_finishes proper (Parser.le_depthFor body.length) first []
  exact ⟨ss, s, run, by rw [parse_of_untilEof ht, run]⟩

/-- The complaints about a program do not depend on the number that its references start at. -/
theorem errors_parse (tokens : List Token) (first first' : RefId) :
    (parse tokens first).errors = (parse tokens first').errors := by
  have base (first : RefId) : (parse tokens first).errors = (parse tokens 0).errors := by
    have shift := parse_shift tokens 0 first
    rw [Nat.zero_add] at shift
    rw [shift]
  rw [base first, base first']

/-- A program without faults is read whatever was complained about in front of it, and does not begin
with `else`. -/
theorem parse_faultless {tokens body : List Token} {endLine : Nat}
    (ht : Token.untilEof tokens = (body, endLine)) (proper : ∀ t ∈ body, t.kind ≠ .eof) {start : RefId}
    (faultless : (parse tokens start).errors = []) (first : RefId) :
    (parse tokens first).errors = [] ∧ (∀ t ∈ body.head?, t.kind ≠ .else) ∧
      ∀ {depth : Nat}, 32 * body.length + 21 ≤ depth → ∀ fs,
        Parser.parseWithin depth (.sequence false) ⟨body, first, fs⟩ =
          .ok (parse tokens first).statements ⟨[], (parse tokens first).nextId, fs⟩ := by
  obtain ⟨ss, s, run, read⟩ := parse_answered ht proper first
  have errors := errors_parse tokens start first
  rw [faultless, read] at errors
  have noFaults : s.faults = [] := List.map_eq_nil_iff.mp errors.symm
  rw [read]
  refine ⟨errors.symm, fun t ht isElse => ?_, fun deep fs => ?_⟩
  · obtain ⟨ts, rfl⟩ := List.head?_eq_some_iff.mp ht
    exact Parser.faults_of_else isElse run noFaults
  · exact Parser.sequence_again run noFaults proper deep fs

theorem Parser.Placed.toError {fs : List Fault} (placed : Placed fs) (line line' : Nat) :
    fs.map (·.toError line) = fs.map (·.toError line') := by
  refine List.map_congr_left fun f hf => ?_
  obtain ⟨t, ht⟩ := Option.isSome_iff_exists.mp (placed f hf)
  simp only [Fault.toError, ht]

/-- A faulty statement neither swallows nor damages the program behind its semicolon, and nothing else
is complained about because of it. Closing braces do no harm in it. -/
theorem faults_contained {b p : List Token} {sign : Token} (hsign : sign.kind = .semicolon)
    (calm : ∀ t ∈ b, t.kind ≠ .semicolon ∧ t.kind ≠ .leftBrace ∧ t.kind ≠ .eof)
    (notFor : ∀ t ∈ b.head?, t.kind ≠ .for)
    (starts : ∀ t ∈ b.tail, t.kind.startsStatement = false) {start : RefId}
    (faultless : (parse p start).errors = []) (first : RefId) :
    let alone := parse (b ++ [sign]) first
    let behind := parse p alone.nextId
    behind.errors = [] ∧ parse (b ++ sign :: p) first =
      ⟨alone.statements ++ behind.statements, alone.errors, behind.nextId⟩ := by
  have plain : ∀ t ∈ b, Parser.Plain t := by
    intro t ht
    refine ⟨(calm t ht).1, (calm t ht).2.1, fun hfor => ?_⟩
    obtain _ | ⟨u, us⟩ := b
    · cases ht
    · obtain rfl | ht := List.mem_cons.mp ht
      · exact notFor t rfl hfor
      · have := starts t ht
        rw [hfor] at this
        cases this
  have signProper : sign.kind ≠ .eof := fun h => nomatch h.symm.trans hsign
  have proper : ∀ t ∈ b ++ [sign], t.kind ≠ .eof :=
    List.forall_mem_append.mpr ⟨fun t ht => (calm t ht).2.2, by simpa using signProper⟩
  have nonempty : b ++ [sign] ≠ [] := List.append_ne_nil_of_right_ne_nil b (List.cons_ne_nil sign [])
  obtain ⟨ss, s, run, alone⟩ :=
    parse_answered (Token.untilEof_of_proper proper nonempty) proper first
  obtain ⟨T, -, hT, -⟩ := Cursor.exists_tape p
  obtain ⟨noErrors, noElse, behind⟩ := parse_faultless hT T.proper faultless s.nextId
  obtain ⟨placed, whole⟩ := Parser.sequence_contained hsign noElse plain starts run
  have both : (Token.untilEof (b ++ sign :: p)).1 = b ++ sign :: T.body := by
    have body := Token.untilEof_append_proper proper p
    rwa [hT, List.append_assoc, List.append_assoc] at body
  -- The semicolon pays for the depth that the statement takes from the program behind it.
  obtain ⟨depth, hdepth⟩ : ∃ n, Parser.depthFor (b ++ sign :: T.body).length = n + 1 := ⟨_, rfl⟩
  have length : (b ++ sign :: T.body).length = (b ++ [sign]).length + T.body.length := by
    rw [List.append_cons, List.length_append]
  have deep : Parser.depthFor (b ++ [sign]).length ≤ depth + 1 := by
    unfold Parser.depthFor at hdepth ⊢
    omega
  have together := whole (behind (by unfold Parser.depthFor at hdepth deep; omega) s.faults) deep
  rw [← hdepth] at together
  rw [alone]
  refine ⟨noErrors, ?_⟩
  rw [parse_of_untilEof (Prod.ext both rfl), together]
  simp only [placed.toError _ ((b ++ [sign]).getLast nonempty).line]

/-- The same of a group that lacks its closing parenthesis, in front of a statement. -/
theorem faults_contained_in_group :
    let b : List Token := [⟨.leftParen, "(", 1, none⟩, ⟨.identifier, "a", 1, none⟩,
      ⟨.identifier, "b", 1, none⟩]
    let sign : Token := ⟨.semicolon, ";", 1, none⟩
    let p : List Token := [⟨.print, "print", 2, none⟩, ⟨.identifier, "c", 2, none⟩,
      ⟨.semicolon, ";", 2, none⟩, .eof 3]
    (parse p 1).errors = [] ∧
      parse (b ++ sign :: p) 0 =
        ⟨(parse (b ++ [sign]) 0).statements ++ (parse p 1).statements, (parse (b ++ [sign]) 0).errors,
          (parse p 1).nextId⟩ ∧
      (parse (b ++ sign :: p) 0).errors.map (·.message) =
        ["[line 1] Error at 'b': Expect ')' after expression."] ∧
      (parse (b ++ sign :: p) 0).statements.length = 1 := by
  intro b sign p
  have faultless : (parse p 0).errors = [] := by decide +kernel
  have isSign : sign.kind = .semicolon := rfl
  have contained := faults_contained (b := b) isSign (by decide) (by decide) (by decide) faultless 0
  have next : (parse (b ++ [sign]) 0).nextId = 1 := by decide +kernel
  simp only [next] at contained
  exact ⟨contained.1, contained.2, by decide +kernel, by decide +kernel⟩

end Lox
