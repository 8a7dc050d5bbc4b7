import PkgManager.InstallMoves

namespace PkgManager.InstallMarks

open Interleaving Installer InstallWorker InstallThreads InstallMoves

/-- A list of installs in the history, which no commit changes. -/
structure Marks where
  of : Record → List Nat
  user : ∀ r pending, of (r.userCommit pending) = of r
  queued : ∀ r batch, of (r.queuedCommit batch) = of r

def canceledMarks : Marks := ⟨Record.canceled, fun _ _ => rfl, fun _ _ => rfl⟩

def detachedMarks : Marks := ⟨Record.detached, fun _ _ => rfl, fun _ _ => rfl⟩

/-- The numbers are those of installs so far, and a pending update is not marked. -/
structure Numbered (m : Marks) (g : Globals) : Prop where
  batch_le : g.record.batch ≤ g.record.batches
  pending_le : g.record.pendingBatch ≤ g.record.batches
  marked_le : ∀ b ∈ m.of g.record, b ≤ g.record.batches
  pending_unmarked : g.pendingPkgPath ≠ [] → g.record.pendingBatch ∉ m.of g.record

variable {m : Marks} {g g' : Globals}

theorem numbered_init : Numbered m installerInit ↔ ∀ b ∈ m.of installerInit.record, b ≤ 0 :=
  ⟨fun h => h.marked_le, fun h => ⟨Nat.le_refl _, Nat.le_refl _, h, fun hne => absurd rfl hne⟩⟩

theorem Numbered.calm (h : Numbered m g) (hc : Calm g g') : Numbered m g' := by
  refine ⟨?_, ?_, ?_, ?_⟩ <;> rw [hc.record]
  · exact h.batch_le
  · exact h.pending_le
  · exact h.marked_le
  · intro hne
    rcases hc.pending with hp | hp
    · exact h.pending_unmarked (hp ▸ hne)
    · exact absurd hp hne

/-- The install that committed last is marked, and nothing is pending any more. -/
theorem Numbered.mark (h : Numbered m g) (hb : g'.record.batch = g.record.batch)
    (hbs : g'.record.batches = g.record.batches)
    (hpb : g'.record.pendingBatch = g.record.pendingBatch) (hp : g'.pendingPkgPath = [])
    (hm : ∀ b ∈ m.of g'.record, b = g.record.batch ∨ b ∈ m.of g.record) : Numbered m g' := by
  refine ⟨?_, ?_, fun b hmem => ?_, fun hne => absurd hp hne⟩
  · rw [hb, hbs]
    exact h.batch_le
  · rw [hpb, hbs]
    exact h.pending_le
  · rw [hbs]
    rcases hm b hmem with rfl | hold
    · exact h.batch_le
    · exact h.marked_le b hold

theorem Numbered.queued {created : Bool} {batch : Nat} (h : Numbered m g)
    (hb : batch ≤ g.record.batches) (hc : Commit g g' (g.record.queuedCommit batch) [] created) :
    Numbered m g' := by
  refine ⟨?_, ?_, ?_, fun hne => absurd hc.pendingPath hne⟩ <;> rw [hc.record]
  · exact hb
  · exact h.pending_le
  · rw [m.queued]
    exact h.marked_le

theorem Numbered.user {c : StartCall} {created : Bool} {threads : List Thread} (h : Numbered m g)
    (hu : UserCommit g g' c created threads) : Numbered m g' := by
  have hc := hu.commit
  refine ⟨?_, ?_, ?_, ?_⟩ <;> rw [hc.record]
  · exact Nat.le_refl _
  · have hp := Nat.le_succ_of_le h.pending_le
    unfold Record.userCommit
    simp only
    split
    · exact Nat.le_refl _
    · exact hp
  · rw [m.user]
    exact fun b hb => Nat.le_succ_of_le (h.marked_le b hb)
  · rw [hc.pendingPath, m.user]
    intro hne
    unfold pendingAfter at hne
    unfold Record.userCommit
    simp only
    cases hl : c.fromLive with
    | true =>
      rw [hl, if_pos rfl] at hne
      simpa using h.pending_unmarked hne
    | false =>
      rw [hl] at hne
      have hp : c.pendingPath ≠ [] := hne
      rw [if_pos (by simp [hp])]
      -- the number of this install is new
      exact fun hmem => absurd (h.marked_le _ hmem) (Nat.not_le.mpr (Nat.lt_succ_self _))

end PkgManager.InstallMarks
