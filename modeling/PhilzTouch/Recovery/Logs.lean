import PhilzTouch.Lib.CText
import PhilzTouch.Lib.Split

/-!
# The log in the cache

`copy_logs`, `finish_recovery` and `erase_volume` of `recovery.c`, as far as they concern the copy
of the temporary log.  A format may fail and leave the files, but the offset is reset all the same.
-/

namespace PhilzTouch.Recovery

open List

/-- `TEMPORARY_LOG_FILE`, `LOG_FILE` and `tmplog_offset`. -/
structure Logs where
  tmplog : Bytes
  log : Bytes
  tmplog_offset : Nat

/-- `copy_log_file` with `append`. -/
def copyLogFile (logs : Logs) : Logs where
  tmplog := logs.tmplog
  log := logs.log ++ (pieces newline 4095 (logs.tmplog.drop logs.tmplog_offset)).flatMap cString
  tmplog_offset := max logs.tmplog_offset logs.tmplog.length

inductive LogOp where
  | append (text : Bytes)
  | copyLogs
  | finishRecovery
  /-- Of `"/cache"`. -/
  | eraseVolume (formatted : Bool)

def Logs.perform (logs : Logs) : LogOp → Logs
  | .append text => { logs with tmplog := logs.tmplog ++ text }
  | .copyLogs | .finishRecovery => copyLogFile logs
  | .eraseVolume formatted => copyLogFile ⟨logs.tmplog, if formatted then [] else logs.log, 0⟩

/-- What the log held when the cache was last formatted, or at the start. -/
def LogOp.base (start : Bytes) : LogOp → Bytes
  | .eraseVolume true => []
  | _ => start

/-- After each copy the log is what it was at first and the whole temporary log. -/
def Exact (start : Bytes) (logs : Logs) : List LogOp → Prop
  | [] => True
  | op :: ops =>
    ((∀ text, op ≠ .append text) →
      (logs.perform op).log = op.base start ++ (logs.perform op).tmplog) ∧
    Exact (op.base start) (logs.perform op) ops

/-- A format fails only when nothing has been copied. -/
def FailsEarly (logs : Logs) : List LogOp → Prop
  | [] => True
  | op :: ops =>
    (op = .eraseVolume false → logs.tmplog_offset = 0) ∧ FailsEarly (logs.perform op) ops

/-- The log holds what the offset says. -/
structure Synced (start : Bytes) (logs : Logs) : Prop where
  nulFree : 0 ∉ logs.tmplog
  inside : logs.tmplog_offset ≤ logs.tmplog.length
  copied : logs.log = start ++ logs.tmplog.take logs.tmplog_offset

theorem Synced.copy {start : Bytes} {logs : Logs} (synced : Synced start logs) :
    copyLogFile logs = ⟨logs.tmplog, start ++ logs.tmplog, logs.tmplog.length⟩ := by
  obtain ⟨nulFree, inside, copied⟩ := synced
  have whole := flatten_pieces newline 4094 (logs.tmplog.drop logs.tmplog_offset)
  -- no piece has a NUL, at which `fputs` would stop
  have same : (pieces newline 4095 (logs.tmplog.drop logs.tmplog_offset)).map cString =
      (pieces newline 4095 (logs.tmplog.drop logs.tmplog_offset)).map id := by
    refine map_congr_left fun piece member => cString_eq_self fun nul => nulFree ?_
    exact mem_of_mem_drop (whole ▸ mem_flatten_of_mem member nul)
  rw [copyLogFile, flatMap, same, map_id, whole, max_eq_right inside, copied, append_assoc,
    take_append_drop]

theorem exact_iff {start : Bytes} {logs : Logs} {ops : List LogOp} (synced : Synced start logs)
    (plain : ∀ text, .append text ∈ ops → 0 ∉ text) :
    Exact start logs ops ↔ FailsEarly logs ops := by
  induction ops generalizing start logs with
  | nil => rfl
  | cons op ops ih =>
    obtain ⟨nulFree, inside, copied⟩ := synced
    have later : ∀ text, .append text ∈ ops → 0 ∉ text :=
      fun text member => plain text (mem_cons_of_mem _ member)
    have copy : ∀ start, Exact start ⟨logs.tmplog, start ++ logs.tmplog, logs.tmplog.length⟩ ops ↔
        FailsEarly ⟨logs.tmplog, start ++ logs.tmplog, logs.tmplog.length⟩ ops :=
      fun start => ih ⟨nulFree, le_rfl, by rw [take_length]⟩ later
    have fresh : ∀ log, Synced log ⟨logs.tmplog, log, 0⟩ :=
      fun log => ⟨nulFree, Nat.zero_le _, (append_nil _).symm⟩
    rw [Exact, FailsEarly]
    cases op with
    | append text =>
      refine and_congr (iff_of_true (fun copies => absurd rfl (copies text)) nofun) (ih ?_ later)
      refine ⟨?_, ?_, ?_⟩
      · simp [Logs.perform, nulFree, plain text mem_cons_self]
      · simp only [Logs.perform, length_append]
        omega
      · rwa [Logs.perform, take_append_of_le_length inside]
    | copyLogs | finishRecovery =>
      rw [Logs.perform, Synced.copy ⟨nulFree, inside, copied⟩]
      exact and_congr (iff_of_true (fun _ => rfl) nofun) (copy start)
    | eraseVolume formatted =>
      rw [Logs.perform, (fresh _).copy]
      cases formatted with
      | true => exact and_congr (iff_of_true (fun _ => rfl) nofun) (copy [])
      | false =>
        rw [if_neg nofun]
        by_cases early : logs.tmplog_offset = 0
        · rw [early, take_zero, append_nil] at copied
          rw [copied]
          exact and_congr (iff_of_true (fun _ => rfl) fun _ => early) (copy start)
        refine iff_of_false (fun exact => ?_) fun earlier => early (earlier.1 rfl)
        -- the bytes copied before would stand there twice
        have twice := congrArg length (exact.1 nofun)
        simp only [copied, length_append, length_take, LogOp.base] at twice
        omega

/-- The log is exact just if a format fails only when nothing has been copied. -/
theorem log_exact_iff {tmplog : Bytes} {ops : List LogOp} (nulFree : 0 ∉ tmplog)
    (plain : ∀ text, .append text ∈ ops → 0 ∉ text) (start : Bytes) :
    Exact start ⟨tmplog, start, 0⟩ ops ↔ FailsEarly ⟨tmplog, start, 0⟩ ops :=
  exact_iff ⟨nulFree, Nat.zero_le _, (append_nil _).symm⟩ plain

theorem log_exact_iff_formatted :
    Exact [1] ⟨[], [1], 0⟩ [.append [2], .copyLogs, .eraseVolume true] ↔
      FailsEarly ⟨[], [1], 0⟩ [.append [2], .copyLogs, .eraseVolume true] :=
  log_exact_iff not_mem_nil (by simp) [1]

/-- After a format that fails, the log has everything twice. -/
theorem log_copied_twice :
    ([.append [2], .copyLogs, .eraseVolume false].foldl Logs.perform ⟨[], [], 0⟩).log = [2, 2] ∧
      ¬ Exact [] ⟨[], [], 0⟩ [.append [2], .copyLogs, .eraseVolume false] := by
  refine ⟨by decide, fun exact => absurd (exact.2.2.1 nofun) (by decide)⟩

end PhilzTouch.Recovery
