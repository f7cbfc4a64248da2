import VideoSync.Proofs.Storage.Reads

/-
  Reads that may fail. A source `Impairs` a plain one when both have the same bytes: its reads may
  be shorter, and its reads and seeks may fail. Whatever is done with a source that impairs another
  one either gives the failure or what the other one gives (`UnlessFailed`); a buffer that was
  filled in part before a failure is never taken for the end of the bytes.
-/

namespace VideoSync.Storage

/-- A result is what it should be, unless it is an error. -/
def UnlessFailed {ε α : Type} (e : ε) (actual expected : Except ε α) : Prop :=
  actual = .error e ∨ actual = expected

theorem UnlessFailed.map {ε α β : Type} {e : ε} {actual expected : Except ε α}
    (h : UnlessFailed e actual expected) (f : α → β) :
    UnlessFailed e (actual.map f) (expected.map f) := by
  rcases h with h | h
  · exact .inl (by rw [h]; rfl)
  · exact .inr (by rw [h])

namespace Source

/-- A source over the bytes of a plain one, whose reads may be short and whose reads and seeks may
fail. -/
structure Impairs (s t : Source) : Prop where
  steady : s.Steady
  plain : t.Plain
  bytes : s.bytes = t.bytes

/-- The same source without its faults. -/
def healed (s : Source) : Source := { s with readFault := none, seekFault := none }

variable {s t : Source}

theorem Steady.impairs_healed (h : s.Steady) : s.Impairs s.healed := ⟨h, ⟨rfl, rfl, h⟩, rfl⟩

theorem seek_cases (s : Source) (pos : Nat) :
    s.seek pos = .error s.failure ∨ s.seek pos = .ok () := by
  unfold seek
  split
  · exact .inl rfl
  · exact .inr rfl

namespace Impairs

theorem tail_eq (h : s.Impairs t) (pos : Nat) : s.tail pos = t.tail pos := by
  rw [tail, tail, h.bytes]

theorem fill (h : s.Impairs t) (pos wanted : Nat) :
    UnlessFailed s.failure (s.fill pos wanted) (t.fill pos wanted) := by
  rcases h.steady.fill_cases pos wanted with ⟨-, hfails⟩ | hfill
  · exact .inl hfails
  · exact .inr (by rw [hfill, h.tail_eq, h.plain.fill_eq])

theorem exactly (h : s.Impairs t) (pos wanted : Nat) :
    UnlessFailed s.failure (s.exactly pos wanted) (t.exactly pos wanted) := by
  unfold Source.exactly
  rcases h.fill pos wanted with hfails | hfill
  · exact .inl (by rw [hfails])
  · exact .inr (by rw [hfill])

/-- Without faults of reads the same bytes are read. -/
theorem fill_eq (h : s.Impairs t) (hreads : s.readFault = none) (pos wanted : Nat) :
    s.fill pos wanted = t.fill pos wanted := by
  have hfill := (h.steady.fill_cases pos wanted).resolve_left fun hfails => hfails.1 hreads
  rw [hfill, h.tail_eq, h.plain.fill_eq]

theorem exactly_eq (h : s.Impairs t) (hreads : s.readFault = none) (pos wanted : Nat) :
    s.exactly pos wanted = t.exactly pos wanted := by
  rw [Source.exactly, Source.exactly, h.fill_eq hreads]

end Impairs
end Source
end VideoSync.Storage
