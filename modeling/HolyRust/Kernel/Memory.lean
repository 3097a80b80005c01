import HolyRust.Library.ByteMemory
import HolyRust.Capabilities.Audit
import HolyRust.Capabilities.Registry

/-!
Direct memory access (`kernel/memory.rs`): the raw `peek`/`poke` pair and the
capability-enforced pair over it.

`Bus` is data memory with the accesses made so far. Every access of the model
goes through `peekU32` and `pokeU32`, so the trace says all that a computation
did to memory (`Bus.Traced`).
-/

namespace HolyRust

open ByteMemory (readWord writeWord applyWrites)

/-- Byte-addressed 32-bit memory. -/
abbrev Memory := ByteMemory.Bytes 32

/-- One 32-bit access: its address and the value read or written. -/
inductive MemEvent where
  | read (addr value : Word)
  | write (addr value : Word)
deriving DecidableEq, Repr

/-- Memory together with its access history, oldest first. -/
structure Bus where
  mem : Memory
  trace : List MemEvent

namespace Bus

/-- Read a 32-bit value from a physical address. -/
def peekU32 (b : Bus) (addr : Word) : Word × Bus :=
  let value := readWord b.mem addr
  (value, { b with trace := b.trace ++ [.read addr value] })

/-- Write a 32-bit value to a physical address. -/
def pokeU32 (b : Bus) (addr value : Word) : Bus where
  mem := writeWord b.mem addr value
  trace := b.trace ++ [.write addr value]

@[simp] theorem peekU32_fst (b : Bus) (addr : Word) :
    (b.peekU32 addr).1 = readWord b.mem addr := rfl

@[simp] theorem peekU32_mem (b : Bus) (addr : Word) : (b.peekU32 addr).2.mem = b.mem := rfl

@[simp] theorem peekU32_trace (b : Bus) (addr : Word) :
    (b.peekU32 addr).2.trace = b.trace ++ [.read addr (readWord b.mem addr)] := rfl

@[simp] theorem pokeU32_mem (b : Bus) (addr value : Word) :
    (b.pokeU32 addr value).mem = writeWord b.mem addr value := rfl

@[simp] theorem pokeU32_trace (b : Bus) (addr value : Word) :
    (b.pokeU32 addr value).trace = b.trace ++ [.write addr value] := rfl

end Bus

/-- The writes of a trace, in order. -/
def MemEvent.writes (trace : List MemEvent) : List (Word × Word) :=
  trace.filterMap fun
    | .read _ _ => none
    | .write addr value => some (addr, value)

/-- The reads of a trace, in order. -/
def MemEvent.reads (trace : List MemEvent) : List Word :=
  trace.filterMap fun
    | .read addr _ => some addr
    | .write _ _ => none

@[simp] theorem MemEvent.writes_nil : MemEvent.writes [] = [] := rfl

@[simp] theorem MemEvent.writes_read (a v : Word) (es : List MemEvent) :
    MemEvent.writes (.read a v :: es) = MemEvent.writes es := rfl

@[simp] theorem MemEvent.writes_write (a v : Word) (es : List MemEvent) :
    MemEvent.writes (.write a v :: es) = (a, v) :: MemEvent.writes es := rfl

@[simp] theorem MemEvent.writes_append (es fs : List MemEvent) :
    MemEvent.writes (es ++ fs) = MemEvent.writes es ++ MemEvent.writes fs :=
  List.filterMap_append

@[simp] theorem MemEvent.reads_nil : MemEvent.reads [] = [] := rfl

@[simp] theorem MemEvent.reads_read (a v : Word) (es : List MemEvent) :
    MemEvent.reads (.read a v :: es) = a :: MemEvent.reads es := rfl

@[simp] theorem MemEvent.reads_write (a v : Word) (es : List MemEvent) :
    MemEvent.reads (.write a v :: es) = MemEvent.reads es := rfl

@[simp] theorem MemEvent.reads_append (es fs : List MemEvent) :
    MemEvent.reads (es ++ fs) = MemEvent.reads es ++ MemEvent.reads fs :=
  List.filterMap_append

/-- From `b` to `b'` just these accesses were made, and memory changed by their
writes. -/
structure Bus.Traced (b b' : Bus) (es : List MemEvent) : Prop where
  trace : b'.trace = b.trace ++ es
  mem : b'.mem = applyWrites b.mem (MemEvent.writes es)

namespace Bus

theorem Traced.trans {b₁ b₂ b₃ : Bus} {es fs : List MemEvent} (h : Traced b₁ b₂ es)
    (h' : Traced b₂ b₃ fs) : Traced b₁ b₃ (es ++ fs) where
  trace := by rw [h'.trace, h.trace, List.append_assoc]
  mem := by rw [h'.mem, h.mem, MemEvent.writes_append, ByteMemory.applyWrites_append]

theorem traced_refl (b : Bus) : Traced b b [] := ⟨by simp, rfl⟩

theorem traced_pokeU32 (b : Bus) (addr value : Word) :
    Traced b (b.pokeU32 addr value) [.write addr value] := ⟨rfl, rfl⟩

theorem traced_peekU32 (b : Bus) (addr : Word) :
    Traced b (b.peekU32 addr).2 [.read addr (readWord b.mem addr)] := ⟨rfl, rfl⟩

end Bus

namespace Memory

/-- Error of the enforced operations. -/
inductive MemError where
  | capabilityViolation | permissionDenied
deriving DecidableEq, Repr

/-- Human-readable error prefix for UART output. -/
def MemError.asBytes : MemError → List Byte
  | .capabilityViolation =>
      bytes "E001: CAPABILITY_VIOLATION - Peripheral token not claimed"
  | .permissionDenied =>
      bytes "E002: PERMISSION_DENIED - Unmapped MMIO access requires SuperUserCap"

/-- Capability-guarded poke. Superuser writes are recorded and go through; a
peripheral needs its capability; any other address passes. -/
def enforcedPokeU32 (t : Target) (r : Registry) (cycles addr value : Word) (log : Audit.AuditLog)
    (b : Bus) : Except MemError (Audit.AuditLog × Bus) :=
  if Registry.isSuperuserActive r then
    .ok (log.recordEvent cycles addr value, b.pokeU32 addr value)
  else
    match Registry.addrToCapId t addr with
    | some capId =>
        if Registry.isClaimed r capId.index then .ok (log, b.pokeU32 addr value)
        else .error .capabilityViolation
    | none => .ok (log, b.pokeU32 addr value)

/-- Capability-guarded peek: the same decision, nothing recorded. -/
def enforcedPeekU32 (t : Target) (r : Registry) (addr : Word) (b : Bus) :
    Except MemError (Word × Bus) :=
  if Registry.isSuperuserActive r then .ok (b.peekU32 addr)
  else
    match Registry.addrToCapId t addr with
    | some capId =>
        if Registry.isClaimed r capId.index then .ok (b.peekU32 addr)
        else .error .capabilityViolation
    | none => .ok (b.peekU32 addr)

end Memory

end HolyRust
