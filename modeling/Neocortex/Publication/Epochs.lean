import Neocortex.Publication.Growth

/-!
# Publication epochs

Any number of calls, in any order, each of them possibly cut behind one of its writes,
leave a directory whose complete records are numbered from one, whose epoch pointer is
absent or the image of one of them, and whose epoch every reader computes to be that of
the last complete record.

* `Reachable.stored`: the invariant of every reachable directory;
* `Reachable.epochsAgree`: what it says about the epochs.
-/

namespace Neocortex
namespace Publication

open Python Checks Durable

/-- Every reachable directory stores a journal. -/
theorem Reachable.stored {H : Sha256} {d : StateDirectory} (h : Reachable H d) :
    ∃ L, Stored d L := by
  refine Step.invariant (I := fun d => ∃ L, Stored d L) (fun c d hd => ?_)
    ⟨[], stored_empty⟩ h
  obtain ⟨L, hL⟩ := hd
  refine wp_mono (fun d' hg => ?_) (fun _ _ _ => trivial) (c.grows (H := H) hL)
  obtain ⟨Δ, -, hs⟩ := hg
  exact ⟨L ++ Δ, hs⟩

/-- The journal `L`, the epoch pointer and the epoch `e` that the readers return agree. -/
structure EpochsAgree (d : StateDirectory) (L : List StatePublication) (e : StateEpoch) : Prop where
  journal : readJournal d = .ok L
  /-- The complete records carry the epochs `1, ..., n` in journal order. -/
  epochs : (completeRecords L).map StatePublication.epoch =
    List.range' 1 (completeRecords L).length
  /-- The epoch pointer is absent, or the exact image of the complete record of its epoch. -/
  pointer : d.epochPointer = none ∨ ∃ p ∈ completeRecords L,
    p.epoch ≤ (completeRecords L).length ∧ PointerOf p d.epochPointer
  /-- The two files never contradict each other. -/
  observed : ∃ pointer, readEpochPointer d = .ok pointer ∧
    stateEpochFromObservation pointer L = .ok e
  read : readStateEpoch d = .ok e
  /-- The epoch is that of the last complete record, with all its fields. -/
  epoch : e.epoch = (completeRecords L).length
  current : IsCurrentEpoch L e

/-- **Publication epochs.** -/
theorem Reachable.epochsAgree {H : Sha256} {d : StateDirectory} (h : Reachable H d) :
    ∃ L e, EpochsAgree d L e := by
  obtain ⟨L, hs⟩ := h.stored
  obtain ⟨e, he, hcur⟩ := hs.readPublicationObservation
  have hobs := he
  rw [readPublicationObservation, bind_eq_ok] at hobs
  obtain ⟨pointer, hp, hobs⟩ := hobs
  rw [bind_eq_ok] at hobs
  obtain ⟨journal, hj, hobs⟩ := hobs
  rw [bind_eq_ok] at hobs
  obtain ⟨e', hse, hpair⟩ := hobs
  cases hpair
  refine ⟨L, e, hs.readJournal, ?_, ?_, ⟨pointer, hp, hse⟩, ?_, hcur.epoch hs.numbered, hcur⟩
  · exact hs.numbered.epochs
  · rcases hs.pointer with hn | ⟨p, hp, himage⟩
    · exact Or.inl hn
    · have hle := (hs.numbered.epoch_le hp).2
      rw [Nat.zero_add] at hle
      exact Or.inr ⟨p, hp, hle, himage⟩
  · rw [readStateEpoch, he]
    rfl

/-! ## A run -/

/-- A stand-in for SHA-256: the last digit is the sum of the bytes. -/
def checksum : Sha256 where
  hexdigest b := List.replicate 63 '0' ++ [Nat.digitChar ((b.map UInt8.toNat).sum % 10)]
  isSha256 b := by
    have hdigit : ∀ n < 10, isLowerHex (Nat.digitChar n) = true := by decide
    refine ⟨by simp, fun c hc => ?_⟩
    rcases List.mem_append.mp hc with h | h
    · rw [List.eq_of_mem_replicate h]
      decide
    · rw [List.mem_singleton.mp h]
      exact hdigit _ (Nat.mod_lt _ (by decide))

/-- A request of a record without heads. -/
def plainRequest (key : String) (status : PublicationStatus) : RecordRequest where
  operation := lit "rebuild"
  owners := [lit "semantic"]
  status := status
  idempotencyKey := lit key
  expectedEpoch := none
  manifestSha256 := none
  detail := none
  ownerHeads := none
  verifyOwnerHeads := none
  expectedPendingEventId := none

instance neZero_hundred : NeZero 100 := ⟨by decide⟩

/-- A clock reading. -/
def clock (n : Fin 100) : TimeNs := ⟨n.1 + 1, by omega⟩

/-- The directory after the calls, each carried to its end. -/
def runCalls (H : Sha256) (d : StateDirectory) : List Call → StateDirectory
  | [] => d
  | c :: cs => runCalls H ((c.program H d).final d) cs

theorem steps_runCalls (H : Sha256) : ∀ (cs : List Call) (d : StateDirectory),
    Steps (Call.program H) d (runCalls H d cs)
  | [], _ => Relation.ReflTransGen.refl
  | c :: cs, d =>
    Relation.ReflTransGen.head (Step.final (Call.program H) c d)
      (steps_runCalls H cs ((c.program H d).final d))

/-- Two complete publications and a failed one. -/
def threeCalls : List Call :=
  [.record (plainRequest "a" .complete) (clock 5),
    .record (plainRequest "b" .failed) (clock 6),
    .record (plainRequest "c" .complete) (clock 7)]

theorem epochsAgree_threeCalls :
    Reachable checksum (runCalls checksum .empty threeCalls) ∧
      ∃ L e, EpochsAgree (runCalls checksum .empty threeCalls) L e :=
  ⟨steps_runCalls checksum threeCalls _,
    Reachable.epochsAgree (steps_runCalls checksum threeCalls _)⟩

end Publication
end Neocortex
