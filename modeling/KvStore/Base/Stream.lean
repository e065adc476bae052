/-
Messages over a stream.

A sender begins one message after the other, and the stream takes it in pieces.  The sender may
give up a message of which not everything is taken, and goes on with the next one; nothing on
the stream tells where this was.  `Sends ms rest out` has the messages so far, what is left of
the last one, and what was taken.
-/
import Mathlib.Data.List.Forall2
import Mathlib.Data.List.Infix

namespace KvStore

variable {α : Type}

/-- `ms` are the messages, of the last one `rest` is left, and the stream has `out`. -/
inductive Sends : List (List α) → List α → List α → Prop
  | start : Sends [] [] []
  | begin {ms : List (List α)} {out : List α} (m : List α) (h : Sends ms [] out) :
      Sends (ms ++ [m]) m out
  | take {ms : List (List α)} {rest out : List α} (piece : List α)
      (h : Sends ms (piece ++ rest) out) : Sends ms rest (out ++ piece)
  | giveUp {ms : List (List α)} {rest out : List α} (h : Sends ms rest out) : Sends ms [] out

namespace Sends

/-- The pieces of the messages, with the rest of the last one. -/
theorem parts_rest {ms : List (List α)} {rest out : List α} (h : Sends ms rest out) :
    ∃ parts, List.Forall₂ (· <+: ·) parts ms ∧ out = parts.flatten ∧
      (rest ≠ [] → ∃ init p ms' m, parts = init ++ [p] ∧ ms = ms' ++ [m] ∧ p ++ rest = m) := by
  induction h with
  | start => exact ⟨[], .nil, rfl, fun hc => absurd rfl hc⟩
  | begin m _ ih =>
      obtain ⟨parts, hparts, rfl, -⟩ := ih
      refine ⟨parts ++ [[]], List.rel_append hparts (.cons List.nil_prefix .nil), by simp,
        fun _ => ?_⟩
      exact ⟨parts, [], _, m, rfl, rfl, rfl⟩
  | @take ms rest out piece _ ih =>
      obtain ⟨parts, hparts, rfl, hlast⟩ := ih
      by_cases hpiece : piece = []
      · subst hpiece
        exact ⟨parts, hparts, by simp, hlast⟩
      · obtain ⟨init, p, ms', m, rfl, rfl, rfl⟩ := hlast (by simp [hpiece])
        have hinit : List.Forall₂ (· <+: ·) init ms' := by
          have hlen := hparts.length_eq
          rw [List.length_append, List.length_append, List.length_singleton,
            List.length_singleton] at hlen
          have htake := List.forall₂_take init.length hparts
          rw [List.take_left' rfl, List.take_left' (by omega)] at htake
          exact htake
        refine ⟨init ++ [p ++ piece], List.rel_append hinit (.cons ?_ .nil), by simp, fun _ => ?_⟩
        · exact ⟨rest, List.append_assoc p piece rest⟩
        · exact ⟨init, p ++ piece, ms', _, rfl, rfl, List.append_assoc p piece rest⟩
  | giveUp _ ih =>
      obtain ⟨parts, hparts, hout, -⟩ := ih
      exact ⟨parts, hparts, hout, fun hc => absurd rfl hc⟩

/-- **The stream has a part of each message, from its beginning, and nothing else.** -/
theorem parts {ms : List (List α)} {rest out : List α} (h : Sends ms rest out) :
    ∃ parts, List.Forall₂ (· <+: ·) parts ms ∧ out = parts.flatten := by
  obtain ⟨parts, hparts, hout, -⟩ := h.parts_rest
  exact ⟨parts, hparts, hout⟩

end Sends

end KvStore
