import HolyRust.Words

/-!
The superuser audit ring (`capabilities/audit.rs`). The cycle counter is
hardware, so every recording takes the value it read.
-/

namespace HolyRust.Audit

/-- One audit record. -/
structure AuditEntry where
  addr : Word
  val : Word
  timestampCycles : Word
deriving DecidableEq, Repr

/-- Fixed-capacity ring buffer (16 entries); `head` is the next slot to write. -/
structure AuditLog where
  buffer : Vector AuditEntry 16
  head : Fin 16
  count : Nat

/-- `AuditLog::new()`. -/
def new : AuditLog := ⟨Vector.replicate 16 ⟨0, 0, 0⟩, 0, 0⟩

/-- `usize::MAX` on a 32-bit target. -/
def usizeMax : Nat := 2 ^ 32 - 1

/-- Record a memory access event. -/
def AuditLog.recordEvent (log : AuditLog) (cycles addr val : Word) : AuditLog where
  buffer := log.buffer.set log.head ⟨addr, val, cycles⟩
  head := log.head + 1
  count := min (log.count + 1) usizeMax

/-- Total events recorded since boot. -/
def AuditLog.totalAudits (log : AuditLog) : Nat := log.count

/-- Borrow the raw ring buffer for iteration. -/
def AuditLog.entries (log : AuditLog) : List AuditEntry := log.buffer.toList

/-- The log after a sequence of recordings, first to last. -/
def AuditLog.recordAll (log : AuditLog) (events : List AuditEntry) : AuditLog :=
  events.foldl (fun log e => log.recordEvent e.timestampCycles e.addr e.val) log

@[simp] theorem recordAll_nil (log : AuditLog) : log.recordAll [] = log := rfl

@[simp] theorem recordAll_cons (log : AuditLog) (e : AuditEntry) (es : List AuditEntry) :
    log.recordAll (e :: es) =
      (log.recordEvent e.timestampCycles e.addr e.val).recordAll es := rfl

theorem recordAll_append (log : AuditLog) (es fs : List AuditEntry) :
    log.recordAll (es ++ fs) = (log.recordAll es).recordAll fs := by
  simp [AuditLog.recordAll]

/-- Below saturation the total counts the recordings. -/
theorem totalAudits_recordAll {es : List AuditEntry} :
    ∀ {log : AuditLog}, log.totalAudits + es.length ≤ usizeMax →
      (log.recordAll es).totalAudits = log.totalAudits + es.length := by
  induction es with
  | nil => intro log _; rfl
  | cons e es ih =>
      intro log h
      simp only [List.length_cons] at h
      have hcount : (log.recordEvent e.timestampCycles e.addr e.val).totalAudits =
          log.totalAudits + 1 := by
        simp only [AuditLog.recordEvent, AuditLog.totalAudits] at h ⊢
        omega
      rw [recordAll_cons, ih (by omega), hcount, List.length_cons]
      omega

end HolyRust.Audit
