import CoverSearch.Proofs.Random.Answers
import Mathlib.Data.Stream.Init

/-!
# Random choices from a stream of words

A keystream is one endless source among many. Here the words of the source are those of any stream, and a choice ends if
finitely many of them are enough for it.

* `Draw.Settles` : some first words of every stream decide the outcome;
* `Draw.inherits_settles` : words settle, and composition keeps that.
-/

namespace CoverSearch.Draw

variable {α β : Type}

/-- Some first words of a stream, whichever the stream is, decide the outcome: a script that begins with them gives it
and is left with what follows them. -/
def Settles (d : Draw α) : Prop :=
  ∀ stream : Stream' UInt64, ∃ n a, ∀ more used,
    d (.script (stream.take n ++ more) used) = .ok (a, .script more (used + n))

theorem Settles.pure (a : α) : Settles (pure a) := fun _ => ⟨0, a, fun _ _ => rfl⟩

/-- The second choice goes on with the stream where the first one has left it. -/
theorem Settles.bind {d : Draw α} {f : α → Draw β} (hd : Settles d) (hf : ∀ a, Gives d a → Settles (f a)) :
    Settles (d >>= f) := by
  intro stream
  obtain ⟨n, a, ha⟩ := hd stream
  obtain ⟨m, b, hb⟩ := hf a ⟨_, _, ha [] 0⟩ (stream.drop n)
  refine ⟨n + m, b, fun more used => bind_eq_ok.2 ⟨(a, .script ((stream.drop n).take m ++ more) (used + n)), ?_, ?_⟩⟩
  · rw [Stream'.take_add, List.append_assoc]
    exact ha _ _
  · rw [← Nat.add_assoc]
    exact hb _ _

theorem settles_word32 : Settles word32 := fun stream => ⟨1, (stream.get 0).toUInt32, fun _ _ => rfl⟩

theorem settles_word64 : Settles word64 := fun stream => ⟨1, stream.get 0, fun _ _ => rfl⟩

theorem inherits_settles : Inherits @Settles where
  pure := .pure
  bind := .bind
  word32 := settles_word32
  word64 := settles_word64

end CoverSearch.Draw
