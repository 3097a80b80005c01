import Mathlib.Algebra.GroupWithZero.Nat
import Mathlib.Data.List.Basic

/-!
Machine code fetched, decoded and executed one instruction after the other until
control leaves it.

* `Isa` — an instruction set: what is encoded is decoded again.
* `run` — execution from a position. Each fetch may see other units than the one
  before it; `Loaded` says that none does on some stretch of the code.
* `Block` — units that together take one state to another, with the rules that put
  blocks behind one another (`Block.seq`, `block_flatMap`).
* `run_block_leave` — a block and the instruction that leaves the code behind it.
* `DataPort` — what loads and stores do, for the instruction sets built on this.
-/

namespace HolyRust.FetchExecute

/-- Control goes on behind the instruction, or to an address elsewhere. -/
inductive Flow (α σ : Type) where
  | next (s : σ)
  | leave (target : α) (s : σ)
deriving DecidableEq, Repr

/-- Words loaded from and stored to a memory `μ`. -/
structure DataPort (α β μ : Type) where
  load : α → μ → β × μ
  store : α → β → μ → μ

/-- The units from here on begin with these. -/
def Starts {υ : Type} (f : Nat → υ) (us : List υ) : Prop := ∀ k (h : k < us.length), f k = us[k]

/-- An instruction set over units `υ`, with addresses `α` and states `σ`. -/
structure Isa (υ ι α σ : Type) where
  encode : ι → List υ
  /-- The instruction the units begin with. -/
  decode : (Nat → υ) → Option ι
  /-- What it does; `none` is a fault. -/
  exec : ι → σ → Option (Flow α σ)
  decode_encode : ∀ i f, Starts f (encode i) → decode f = some i

variable {υ ι α σ κ : Type} (isa : Isa υ ι α σ) (fetch : Nat → Nat → υ)

/-- Execute from `pos` until control leaves, for at most so many instructions; the
first argument of `fetch` tells the fetches of different steps apart. -/
def run : Nat → Nat → σ → Option (α × σ)
  | 0, _, _ => none
  | fuel + 1, pos, s =>
      match isa.decode fun k => fetch fuel (pos + k) with
      | none => none
      | some i =>
          match isa.exec i s with
          | none => none
          | some (.next s') => run fuel (pos + (isa.encode i).length) s'
          | some (.leave target s') => some (target, s')

/-- Every fetch from `pos` on sees these units. -/
def Loaded (pos : Nat) (us : List υ) : Prop := ∀ n, Starts (fun k => fetch n (pos + k)) us

/-- In `k` steps the units take a state where `f` says, and control is behind them. -/
def Block (us : List υ) (k : Nat) (f : σ → Option σ) : Prop :=
  ∀ fetch fuel pos s, Loaded fetch pos us →
    run isa fetch (fuel + k) pos s =
      (f s).bind fun s' => run isa fetch fuel (pos + us.length) s'

variable {isa fetch}

theorem Loaded.left {pos : Nat} {us vs : List υ} (h : Loaded fetch pos (us ++ vs)) :
    Loaded fetch pos us := by
  intro n k hk
  have hk' : k < (us ++ vs).length := by
    rw [List.length_append]
    omega
  exact (h n k hk').trans (List.getElem_append_left hk)

theorem Loaded.right {pos : Nat} {us vs : List υ} (h : Loaded fetch pos (us ++ vs)) :
    Loaded fetch (pos + us.length) vs := by
  intro n k hk
  have hk' : us.length + k < (us ++ vs).length := by
    rw [List.length_append]
    omega
  have hunit := h n (us.length + k) hk'
  rw [List.getElem_append_right (Nat.le_add_right _ _)] at hunit
  simpa [Nat.add_assoc] using hunit

theorem decode_of_loaded {pos n : Nat} {i : ι} (h : Loaded fetch pos (isa.encode i)) :
    isa.decode (fun k => fetch n (pos + k)) = some i :=
  isa.decode_encode i _ (h n)

/-! ### Blocks -/

/-- What an instruction leaves if control goes on behind it. -/
def Isa.step (isa : Isa υ ι α σ) (i : ι) (s : σ) : Option σ :=
  match isa.exec i s with
  | some (.next s') => some s'
  | _ => none

/-- The instruction never leaves the code. -/
def Isa.Stays (isa : Isa υ ι α σ) (i : ι) : Prop := ∀ s a s', isa.exec i s ≠ some (.leave a s')

theorem block_nil : Block isa [] 0 some := by
  intro fetch fuel pos s _
  rfl

theorem block_instr {i : ι} (hstays : isa.Stays i) : Block isa (isa.encode i) 1 (isa.step i) := by
  intro fetch fuel pos s hloaded
  rw [run, decode_of_loaded hloaded]
  unfold Isa.step
  cases hexec : isa.exec i s with
  | none => simp [hexec]
  | some flow =>
      cases flow with
      | next s' => simp [hexec]
      | leave a s' => exact absurd hexec (hstays s a s')

/-- Units that begin no instruction stop the run. -/
theorem block_undefined {us : List υ} (h : ∀ f, Starts f us → isa.decode f = none) :
    Block isa us 1 fun _ => none := by
  intro fetch fuel pos s hloaded
  rw [run, h _ (hloaded fuel)]
  rfl

/-- One block behind another. -/
theorem Block.seq {us vs : List υ} {j k : Nat} {f g : σ → Option σ} (hf : Block isa us j f)
    (hg : Block isa vs k g) : Block isa (us ++ vs) (k + j) fun s => (f s).bind g := by
  intro fetch fuel pos s hloaded
  rw [← Nat.add_assoc, hf fetch (fuel + k) pos s hloaded.left]
  beta_reduce
  cases f s with
  | none => rfl
  | some s' =>
      rw [Option.bind_some, Option.bind_some, hg fetch fuel (pos + us.length) s' hloaded.right,
        List.length_append, Nat.add_assoc]

/-- A block is about what its function returns. -/
theorem Block.congr {us : List υ} {k : Nat} {f g : σ → Option σ} (h : Block isa us k f)
    (heq : ∀ s, f s = g s) : Block isa us k g := by
  rwa [← funext heq]

/-- Blocks of the elements of a list, in order. -/
theorem block_flatMap {units : κ → List υ} {steps : κ → Nat} {f : κ → σ → Option σ} {cs : List κ}
    (h : ∀ c ∈ cs, Block isa (units c) (steps c) (f c)) :
    Block isa (cs.flatMap units) (cs.map steps).sum fun s => cs.foldlM (fun s c => f c s) s := by
  induction cs with
  | nil => exact block_nil
  | cons c cs ih =>
      have hrest := ih fun d hd => h d (List.mem_cons_of_mem c hd)
      have hboth := (h c List.mem_cons_self).seq hrest
      rw [List.map_cons, List.sum_cons, Nat.add_comm, List.flatMap_cons]
      exact hboth.congr fun s => by rw [List.foldlM_cons]; rfl

/-- A block, then an instruction that leaves: with steps enough the run ends where
that one goes. -/
theorem run_block_leave {us : List υ} {k : Nat} {f : σ → Option σ} (hblock : Block isa us k f)
    {i : ι} {target : α} {s : σ}
    (hleave : ∀ s', f s = some s' → isa.exec i s' = some (.leave target s'))
    {pos : Nat} (hloaded : Loaded fetch pos (us ++ isa.encode i)) (fuel : Nat) :
    run isa fetch (fuel + 1 + k) pos s = (f s).map fun s' => (target, s') := by
  rw [hblock fetch (fuel + 1) pos s hloaded.left]
  cases hf : f s with
  | none => rfl
  | some s' =>
      rw [Option.bind_some, run, decode_of_loaded hloaded.right]
      simp [hleave s' hf]

end HolyRust.FetchExecute
