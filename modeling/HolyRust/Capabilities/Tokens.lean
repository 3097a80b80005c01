import HolyRust.Capabilities.Registry

/-!
Linear capability tokens (`capabilities/tokens.rs`). A `Cap<T>` is the right to
use resource `T`; Rust's move semantics is what keeps it from being duplicated,
so the model passes tokens by value and leaves linearity to whoever threads
them (`HolyRust.System.Ownership`).
-/

namespace HolyRust.Tokens

/-- The resources `define_resource!` declares. -/
inductive HardwareResource where
  | gpioA | gpioB | uart0 | spi0 | i2c0 | timer0 | dma0 | superUserCap
deriving DecidableEq, Repr

/-- `RESOURCE_ID`. -/
def HardwareResource.resourceId : HardwareResource → Nat
  | .gpioA => 0
  | .gpioB => 1
  | .uart0 => 2
  | .spi0 => 3
  | .i2c0 => 4
  | .timer0 => 5
  | .dma0 => 6
  | .superUserCap => 31

/-- `NAME`, as the REPL displays it. -/
def HardwareResource.name : HardwareResource → List Byte
  | .gpioA => bytes "GPIOA"
  | .gpioB => bytes "GPIOB"
  | .uart0 => bytes "UART0"
  | .spi0 => bytes "SPI0"
  | .i2c0 => bytes "I2C0"
  | .timer0 => bytes "TIMER0"
  | .dma0 => bytes "DMA0"
  | .superUserCap => bytes "SUPERUSER"

/-- `Cap<T>`: a token for resource `T`, holding its registry id. -/
structure Cap (T : HardwareResource) where
  id : Nat
deriving DecidableEq, Repr

/-- Claim exclusive ownership of `T` if it is free. -/
def claim (T : HardwareResource) (r : Registry) : Option (Cap T) × Registry :=
  match Registry.acquire r T.resourceId with
  | (true, r') => (some ⟨T.resourceId⟩, r')
  | (false, r') => (none, r')

/-- Relinquish ownership, consuming the token. -/
def dropCap {T : HardwareResource} (cap : Cap T) (r : Registry) : Registry :=
  Registry.release r cap.id

/-- `grant_superuser`: the claim, counted in `SUPERUSER_AUDIT_COUNT` when it
succeeds. -/
def grantSuperuser (count : Word) (r : Registry) : Option (Cap .superUserCap) × Word × Registry :=
  match claim .superUserCap r with
  | (some cap, r') => (some cap, count + 1, r')
  | (none, r') => (none, count, r')

/-- The table of `resolve_name`. -/
def nameTable : List (List Byte × Nat) :=
  [(bytes "GPIOA", 0), (bytes "GPIOB", 1), (bytes "UART0", 2), (bytes "SPI0", 3),
   (bytes "I2C0", 4), (bytes "TIMER0", 5), (bytes "DMA0", 6), (bytes "SUPERUSER", 31)]

/-- Resolve a resource by its stable name. -/
def resolveName (name : List Byte) : Option Nat :=
  (nameTable.find? fun p => p.1 == name).map Prod.snd

theorem resourceId_lt (T : HardwareResource) : T.resourceId < Registry.maxResources := by
  cases T <;> decide

/-- Every name resolves to the id of a declared resource with that name. -/
theorem resolveName_eq_some {name : List Byte} {id : Nat} (h : resolveName name = some id) :
    ∃ T : HardwareResource, T.name = name ∧ T.resourceId = id := by
  unfold resolveName at h
  obtain ⟨p, hp, rfl⟩ := Option.map_eq_some_iff.mp h
  have hname : p.1 = name := by simpa using List.find?_some hp
  have hmem := List.mem_of_find?_eq_some hp
  simp only [nameTable, List.mem_cons, List.not_mem_nil, or_false] at hmem
  rcases hmem with rfl | rfl | rfl | rfl | rfl | rfl | rfl | rfl
  · exact ⟨.gpioA, hname, rfl⟩
  · exact ⟨.gpioB, hname, rfl⟩
  · exact ⟨.uart0, hname, rfl⟩
  · exact ⟨.spi0, hname, rfl⟩
  · exact ⟨.i2c0, hname, rfl⟩
  · exact ⟨.timer0, hname, rfl⟩
  · exact ⟨.dma0, hname, rfl⟩
  · exact ⟨.superUserCap, hname, rfl⟩

/-- Every declared resource resolves by its own name. -/
theorem resolveName_name (T : HardwareResource) : resolveName T.name = some T.resourceId := by
  cases T <;> decide

/-- The Rust side and the REPL agree on what a resource is called. -/
theorem claim_fst_isSome (T : HardwareResource) (r : Registry) :
    (claim T r).1.isSome = !Registry.held r T.resourceId := by
  have hans := Registry.acquire_fst r T.resourceId
  rw [decide_eq_true (resourceId_lt T), Bool.true_and] at hans
  unfold claim
  cases hacq : Registry.acquire r T.resourceId with
  | mk ok r' =>
      rw [hacq] at hans
      cases ok <;> simp_all

theorem claim_snd (T : HardwareResource) (r : Registry) :
    (claim T r).2 = (Registry.acquire r T.resourceId).2 := by
  unfold claim
  cases Registry.acquire r T.resourceId with
  | mk ok r' => cases ok <;> rfl

/-- A token carries the id of its resource. -/
theorem claim_id {T : HardwareResource} {r r' : Registry} {cap : Cap T}
    (h : claim T r = (some cap, r')) : cap.id = T.resourceId := by
  unfold claim at h
  split at h
  · cases h; rfl
  · cases h

end HolyRust.Tokens
