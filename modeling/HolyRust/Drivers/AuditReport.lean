import HolyRust.Library.RecentRing
import HolyRust.Drivers.Repl

/-!
What `sys_audit` reports of the history. The log keeps its last sixteen events in
a ring whose unused slots are zero, and the dump leaves out every entry at address
0: it tells an unused slot from an event by the address alone.

* `handleAudit_eq` — the dump as one text.
* `entries_recordAll` — what the slots hold after any history.
* `sysAudit_reports_iff` — the dump is the recent history exactly when none of
  the recent events is at address 0.
-/

namespace HolyRust.Repl

open Audit (AuditEntry AuditLog usizeMax)
open RecentRing (Ring)

/-! ### The text -/

/-- The digits `write_dec_u32` puts. -/
def decText (value : Word) : List Byte := (Uart.writeDecU32 value).getD []

theorem writeDecU32_eq (value : Word) : Uart.writeDecU32 value = some (decText value) := by
  obtain ⟨text, h⟩ := Option.isSome_iff_exists.mp (Uart.writeDecU32_isSome value)
  rw [decText, h, Option.getD_some]

/-- An event with its address, its value and its cycle count. -/
def eventText (e : AuditEntry) : List Byte :=
  bytes "ADDR: " ++ Uart.writeHexU32 e.addr ++ bytes " | VAL: " ++ Uart.writeHexU32 e.val ++
    bytes " | CYCLES: " ++ decText e.timestampCycles ++ bytes "\r\n"

/-- A dump of these events under this total. -/
def auditText (total : Nat) (shown : List AuditEntry) : List Byte :=
  bytes "--- SUPERUSER AUDIT LOG ---\r\n" ++ bytes "Total Unsafe Operations: " ++
    decText (BitVec.ofNat 32 total) ++ bytes "\r\nRecent Events:\r\n" ++
    (shown.map eventText).flatten

theorem auditLine_eq (e : AuditEntry) :
    auditLine e = some (if e.addr ≠ 0#32 then eventText e else []) := by
  unfold auditLine
  split <;> simp [writeDecU32_eq, eventText]

/-- The entries that are printed. -/
def listed (entries : List AuditEntry) : List AuditEntry :=
  entries.filter fun e => decide (e.addr ≠ 0#32)

theorem flatten_lines (entries : List AuditEntry) :
    (entries.map fun e => if e.addr ≠ 0#32 then eventText e else []).flatten =
      ((listed entries).map eventText).flatten := by
  induction entries with
  | nil => rfl
  | cons e es ih =>
      by_cases he : e.addr = 0#32
      · simpa [listed, he] using ih
      · simpa [listed, he] using ih

theorem handleAudit_eq (log : AuditLog) :
    handleAudit log = some (auditText log.totalAudits (listed log.entries)) := by
  have hlines : log.entries.mapM auditLine = some (log.entries.map fun e =>
      if e.addr ≠ 0#32 then eventText e else []) := by
    rw [funext auditLine_eq]
    exact List.mapM_pure
  simp only [handleAudit, writeDecU32_eq, hlines, auditText, ← flatten_lines]
  rfl

theorem eventText_ne_nil (e : AuditEntry) : eventText e ≠ [] := by
  simp [eventText, bytes]

/-! ### The history -/

/-- The last sixteen events of a history, all of it when it is shorter. -/
def recent (es : List AuditEntry) : List AuditEntry := es.drop (es.length - 16)

/-- The log as a ring of the entries it keeps. -/
def ring (log : AuditLog) : Ring AuditEntry 16 := ⟨log.buffer, log.head⟩

theorem ring_recordAll (es : List AuditEntry) :
    ∀ log : AuditLog, ring (log.recordAll es) = (ring log).writeAll es := by
  induction es with
  | nil => intro log; rfl
  | cons e es ih => intro log; exact ih _

/-- The total stops at `usize::MAX`. -/
theorem totalAudits_recordAll_min (es : List AuditEntry) :
    ∀ log : AuditLog, log.totalAudits ≤ usizeMax →
      (log.recordAll es).totalAudits = min (log.totalAudits + es.length) usizeMax := by
  induction es with
  | nil => intro log h; exact (Nat.min_eq_left h).symm
  | cons e es ih =>
      intro log h
      have hcount : (log.recordEvent e.timestampCycles e.addr e.val).totalAudits =
          min (log.totalAudits + 1) usizeMax := rfl
      rw [Audit.recordAll_cons, ih _ (by rw [hcount]; exact Nat.min_le_right _ _), hcount,
        List.length_cons]
      omega

/-- The slots hold the recent events and, early on, entries never written. -/
theorem entries_recordAll (es : List AuditEntry) :
    (Audit.new.recordAll es).entries.Perm
      (List.replicate (16 - es.length) ⟨0, 0, 0⟩ ++ recent es) := by
  have hslots := (ring (Audit.new.recordAll es)).slots_perm
  have hfresh : ring Audit.new = Ring.fresh ⟨0, 0, 0⟩ := rfl
  rw [ring_recordAll, hfresh, Ring.contents_writeAll_fresh, ← hfresh, ← ring_recordAll] at hslots
  exact hslots

/-- The dump lists the recent events that are not at address 0. -/
theorem listed_recordAll (es : List AuditEntry) :
    (listed (Audit.new.recordAll es).entries).Perm (listed (recent es)) := by
  have hunused : listed (List.replicate (16 - es.length) ⟨0, 0, 0⟩) = [] := by
    simp [listed]
  have happend : listed (List.replicate (16 - es.length) ⟨0, 0, 0⟩ ++ recent es) =
      listed (List.replicate (16 - es.length) ⟨0, 0, 0⟩) ++ listed (recent es) :=
    List.filter_append _ _
  rw [← List.nil_append (listed (recent es)), ← hunused, ← happend]
  exact (entries_recordAll es).filter _

/-! ### The report -/

/-- `sys_audit` prints the total and, in some order, just these events. -/
def Reports (log : AuditLog) (total : Nat) (events : List AuditEntry) : Prop :=
  ∃ shown, shown.Perm events ∧ handleAudit log = some (auditText total shown)

theorem reports_listed (es : List AuditEntry) :
    Reports (Audit.new.recordAll es) (min es.length usizeMax) (listed (recent es)) := by
  refine ⟨_, listed_recordAll es, ?_⟩
  rw [handleAudit_eq, totalAudits_recordAll_min es _ (Nat.zero_le _)]
  simp [Audit.new, AuditLog.totalAudits]

/-- The number of bytes the lines of these events take. -/
def textSize (events : List AuditEntry) : Nat :=
  (events.map fun e => (eventText e).length).sum

theorem textSize_congr {events events' : List AuditEntry} (h : events.Perm events') :
    textSize events = textSize events' :=
  (h.map _).sum_nat

/-- Two reports of one log take the same number of bytes. -/
theorem Reports.textSize_eq {log : AuditLog} {total : Nat} {events events' : List AuditEntry}
    (h : Reports log total events) (h' : Reports log total events') :
    textSize events = textSize events' := by
  obtain ⟨shown, hperm, htext⟩ := h
  obtain ⟨shown', hperm', htext'⟩ := h'
  have hlen := congrArg List.length (Option.some.inj (htext.symm.trans htext'))
  simp only [auditText, List.length_append, List.length_flatten, List.map_map] at hlen
  rw [← textSize_congr hperm, ← textSize_congr hperm']
  exact Nat.add_left_cancel hlen

/-- Leaving an event out shortens the dump. -/
theorem textSize_listed_lt {es : List AuditEntry} {e : AuditEntry} (he : e ∈ es)
    (hzero : e.addr = 0#32) : textSize (listed es) < textSize es := by
  have hsplit := textSize_congr
    (List.filter_append_perm (fun e : AuditEntry => decide (e.addr ≠ 0#32)) es)
  have hpos : 0 < textSize (es.filter fun e => !decide (e.addr ≠ 0#32)) :=
    List.sum_pos_iff_exists_pos_nat.mpr ⟨(eventText e).length,
      List.mem_map_of_mem (List.mem_filter.mpr ⟨he, by simp [hzero]⟩),
      List.length_pos_iff.mpr (eventText_ne_nil e)⟩
  rw [textSize, List.map_append, List.sum_append] at hsplit
  exact hsplit ▸ Nat.lt_add_of_pos_right hpos

theorem not_reports_of_zero {es : List AuditEntry} {e : AuditEntry} (he : e ∈ recent es)
    (hzero : e.addr = 0#32) :
    ¬ Reports (Audit.new.recordAll es) (min es.length usizeMax) (recent es) := by
  intro h
  have hlt := textSize_listed_lt he hzero
  have heq := h.textSize_eq (reports_listed es)
  exact absurd heq (Nat.ne_of_gt hlt)

/-- After any history, the dump shows the total and exactly the recent events if
and only if none of these is at address 0. -/
theorem sysAudit_reports_iff (es : List AuditEntry) :
    Reports (Audit.new.recordAll es) (min es.length usizeMax) (recent es) ↔
      ∀ e ∈ recent es, e.addr ≠ 0#32 := by
  constructor
  · intro h e he hzero
    exact not_reports_of_zero he hzero h
  · intro h
    have hall : listed (recent es) = recent es :=
      List.filter_eq_self.mpr fun e he => decide_eq_true (h e he)
    rw [← hall]
    exact reports_listed es

/-- One SUPERUSER store to address 0: it is counted and not listed. -/
theorem sysAudit_drops_event_at_zero :
    handleAudit (Audit.new.recordAll [⟨0, 5, 7⟩]) = some (auditText 1 []) ∧
      ¬ ∀ es : List AuditEntry, es.length ≤ usizeMax →
        Reports (Audit.new.recordAll es) es.length (recent es) := by
  refine ⟨by rw [handleAudit_eq]; rfl, fun hall => ?_⟩
  have hrecent : (⟨0, 5, 7⟩ : AuditEntry) ∈ recent [⟨0, 5, 7⟩] := List.mem_singleton.mpr rfl
  exact not_reports_of_zero hrecent rfl (hall [⟨0, 5, 7⟩] (by decide))

end HolyRust.Repl
