import Lox.Proofs.Relabel.Eval

/-!
Which references a machine can come to hold: those of the program it runs and those it held before.
-/

namespace Lox

variable {ρ σ τ κ α β γ : Type}

theorem Environment.map_map (f : α → β) (g : β → γ) (e : Environment α) :
    (e.map f).map g = e.map (g ∘ f) := by
  simp only [Environment.map, List.map_map]
  congr 2
  funext entry
  obtain ⟨name, a⟩ := entry
  simp only [Function.comp, Option.map_map]

theorem Environments.map_map (f : α → β) (g : β → γ) (s : Environments α) :
    (s.map f).map g = s.map (g ∘ f) := by
  simp only [Environments.map, Array.map_map]
  congr 2
  funext e
  exact e.map_map f g

theorem Value.relabel_comp_relabel (φ : Relabeling ρ σ) (ψ : Relabeling σ τ) :
    (Value.relabel ψ ∘ Value.relabel φ : Value ρ κ → Value τ κ) = Value.relabel (ψ.comp φ) := by
  funext v
  exact v.relabel_relabel φ ψ

theorem Fields.relabel_relabel (φ : Relabeling ρ σ) (ψ : Relabeling σ τ) (fs : Fields ρ κ) :
    (fs.relabel φ).relabel ψ = fs.relabel (ψ.comp φ) := by
  simp only [Fields.relabel, List.map_map]
  congr 1
  funext entry
  obtain ⟨name, v⟩ := entry
  simp only [Function.comp, Value.relabel_relabel]

theorem Machine.relabel_relabel (φ : Relabeling ρ σ) (ψ : Relabeling σ τ) (m : Machine ρ) :
    (m.relabel φ).relabel ψ = m.relabel (ψ.comp φ) := by
  simp only [Machine.relabel, Environments.map_map, Value.relabel_comp_relabel, Array.map_map]
  congr 2
  funext fs
  exact fs.relabel_relabel φ ψ

theorem Value.relabel_id (v : Value ρ κ) : v.relabel (.onRefs id) = v := by
  have hf : ∀ f : Function ρ κ, f.relabel (.onRefs id) = f := fun f => by
    simp only [Function.relabel, Closure.relabel, Routine.relabel_id]
  have hc : ∀ c : Class ρ κ, c.relabel (.onRefs id) = c := by
    intro c
    induction c using Class.relabel.induct with
    | case1 id name ms cs => simp only [Class.relabel, List.map_id'' hf]
    | case2 id name parent ms cs ih => simp only [Class.relabel, List.map_id'' hf, ih]
  cases v with
  | function id f => simp only [relabel, hf]
  | lambda id line c =>
    simp only [relabel, Closure.relabel, Routine.relabel_id]
    rfl
  | «class» c | «instance» _ c => simp only [relabel, hc]
  | _ => rfl

theorem Machine.relabel_id (m : Machine ρ) : m.relabel (.onRefs id) = m := by
  have hv : (Value.relabel (.onRefs id) : Value ρ EnvId → Value ρ EnvId) = id :=
    funext Value.relabel_id
  have he : Environment.map (id : Value ρ EnvId → Value ρ EnvId) = id := by
    funext e
    simp only [Environment.map, Option.map_id, id, List.map_id']
  have hf : Fields.relabel (κ := EnvId) (.onRefs (id : ρ → ρ)) = id := by
    funext fs
    simp only [Fields.relabel, Value.relabel_id, id, List.map_id']
  simp only [Machine.relabel, Environments.map, hv, he, hf, Array.map_id]

/-- Only the references with identities below the number occur in the machine: nothing else of a
relabeling matters to it. -/
def Machine.Below (n : RefId) (m : Machine RefId) : Prop :=
  ∀ ⦃σ : Type⦄ (f g : RefId → σ), (∀ id < n, f id = g id) →
    m.relabel (.onRefs f) = m.relabel (.onRefs g)

theorem Machine.Below.mono {n n' : RefId} {m : Machine RefId} (h : m.Below n) (hn : n ≤ n') :
    m.Below n' := fun _ f g hf => h f g fun id hi => hf id (Nat.lt_of_lt_of_le hi hn)

theorem Stmt.map_relabel_congr {f g : ρ → σ} {p : List (Stmt ρ)}
    (h : ∀ id ∈ Stmt.referencesAll p, f id = g id) :
    p.map (Stmt.relabel (.onRefs f)) = p.map (Stmt.relabel (.onRefs g)) := by
  rw [← Stmt.relabelAll_eq_map, ← Stmt.relabelAll_eq_map]
  exact Stmt.relabelAll_congr (φ := .onRefs f) (ψ := .onRefs g) rfl p h

/-- Keeps the binding of each reference beside what a relabeling makes of it. -/
def Relabeling.beside (site : RefId → Option Binding) (f : RefId → σ) :
    Relabeling RefId (σ × Option Binding) := .onRefs fun id => (f id, site id)

theorem Machine.fst_relabel_beside (site : RefId → Option Binding) (f : RefId → σ)
    (m : Machine RefId) :
    (m.relabel (.beside site f)).relabel (.onRefs Prod.fst) = m.relabel (.onRefs f) :=
  Machine.relabel_relabel _ _ m

/-- A program that runs adds no other references to a machine than its own. -/
theorem interpret_below (site : RefId → Option Binding) {n : RefId} {p : List (Stmt RefId)}
    {m : Machine RefId} (hm : m.Below n) (hp : ∀ id ∈ Stmt.referencesAll p, id < n) (fuel : Nat) :
    match interpret site fuel p m with
    | .ok _ m' | .error _ m' => m'.Below n := by
  have run {σ : Type} (f : RefId → σ) : Run.Follows (.beside site f) (Value.relabel _)
      (interpret site fuel p)
      (interpret Prod.snd fuel (p.map (Stmt.relabel (.beside site f)))) m :=
    interpret_follows (fun _ => rfl) fuel p m
  have agree {σ : Type} {f g : RefId → σ} (h : ∀ id < n, f id = g id) :
      Run.relabelResult (.beside site f) (Value.relabel (.beside site f))
          (interpret site fuel p m) =
        Run.relabelResult (.beside site g) (Value.relabel (.beside site g))
          (interpret site fuel p m) := by
    have pairs : ∀ id < n, (f id, site id) = (g id, site id) := fun id hi => by rw [h id hi]
    have hm' : m.relabel (.beside site f) = m.relabel (.beside site g) := hm _ _ pairs
    have hp' : p.map (Stmt.relabel (.beside site f)) = p.map (Stmt.relabel (.beside site g)) :=
      Stmt.map_relabel_congr fun id hi => pairs id (hp id hi)
    have hf := run f
    have hg := run g
    unfold Run.Follows at hf hg
    rw [← hf, ← hg, hm', hp']
  cases h : interpret site fuel p m with
  | ok v m' =>
    intro σ f g hfg
    have h' := agree hfg
    simp only [h, Run.relabelResult] at h'
    injection h' with _ hm'
    rw [← Machine.fst_relabel_beside site f, ← Machine.fst_relabel_beside site g, hm']
  | error stop m' =>
    intro σ f g hfg
    have h' := agree hfg
    simp only [h, Run.relabelResult] at h'
    injection h' with _ hm'
    rw [← Machine.fst_relabel_beside site f, ← Machine.fst_relabel_beside site g, hm']

/-- Two tables that agree on the references in use run a program alike. -/
theorem interpretFrom_congr {site site' : RefId → Option Binding} {n : RefId}
    (hs : ∀ id < n, site id = site' id) {p : List (Stmt RefId)} {m : Machine RefId}
    (hm : m.Below n) (hp : ∀ id ∈ Stmt.referencesAll p, id < n) (fuel : Nat) :
    interpretFrom site fuel .nil p m = interpretFrom site' fuel .nil p m := by
  have pairs : ∀ id < n, (id, site id) = (id, site' id) := fun id hi => by rw [hs id hi]
  have run (site : RefId → Option Binding) : Run.Follows (.beside site id) (Value.relabel _)
      (interpretFrom site fuel .nil p)
      (interpretFrom Prod.snd fuel .nil (p.map (Stmt.relabel (.beside site id)))) m :=
    interpretFrom_follows (fun _ => rfl) fuel .nil p m
  have hm' : m.relabel (.beside site id) = m.relabel (.beside site' id) := hm _ _ pairs
  have hp' : p.map (Stmt.relabel (.beside site id)) = p.map (Stmt.relabel (.beside site' id)) :=
    Stmt.map_relabel_congr fun id hi => pairs id (hp id hi)
  have back (site : RefId → Option Binding)
      (r : EStateM.Result Stop (Machine RefId) (Value RefId EnvId)) :
      Run.relabelResult (.onRefs Prod.fst) (Value.relabel (.onRefs Prod.fst))
        (Run.relabelResult (.beside site id) (Value.relabel (.beside site id)) r) = r := by
    cases r with
    | ok v m =>
      have hv := (v.relabel_relabel (.beside site id) (.onRefs Prod.fst)).trans v.relabel_id
      have hm := (m.relabel_relabel (.beside site id) (.onRefs Prod.fst)).trans m.relabel_id
      simp only [Run.relabelResult, hv, hm]
    | error s m =>
      have hm := (m.relabel_relabel (.beside site id) (.onRefs Prod.fst)).trans m.relabel_id
      simp only [Run.relabelResult, Stop.relabel_onRefs, hm]
      rw [Relabeling.beside, Stop.relabel_onRefs]
  have h := run site
  have h' := run site'
  unfold Run.Follows at h h'
  rw [← back site (interpretFrom site fuel .nil p m), ← h, hm', hp', h']
  exact back site' _

/-! At the start of a session a machine holds no references. -/

@[simp] theorem Environments.map_empty (f : α → β) : Environments.map f {} = {} := by
  simp [Environments.map, Environment.map]

theorem Environments.map_foldl_native (f : Value ρ κ → Value σ κ) (hf : ∀ n, f (.native n) = .native n)
    (ns : List Native) (s : Environments (Value ρ κ)) :
    (ns.foldl (fun s n => s.define .global n.name (some (.native n))) s).map f =
      ns.foldl (fun s n => s.define .global n.name (some (.native n))) (s.map f) := by
  induction ns generalizing s with
  | nil => rfl
  | cons n ns ih => rw [List.foldl_cons, ih, Environments.map_define, Option.map_some, hf,
      List.foldl_cons]

@[simp] theorem Machine.relabel_start (φ : Relabeling ρ σ) (host : Host) :
    (Machine.start host : Machine ρ).relabel φ = Machine.start host := by
  have h := Environments.map_foldl_native (Value.relabel φ : Value ρ EnvId → Value σ EnvId)
    (fun _ => rfl) Native.all {}
  rw [Environments.map_empty] at h
  simp only [Machine.start, Machine.relabel, h, List.map_toArray, List.map_nil]

theorem Machine.below_start (host : Host) : (Machine.start host).Below 0 := by
  intro σ f g _
  rw [Machine.relabel_start, Machine.relabel_start]

end Lox
