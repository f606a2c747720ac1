import Mathlib

/-! A channel that delivers its messages first in first out, and what it takes for the buffers
of an implementation to stand for it. -/
namespace LibPosix.Fifo
variable {M I D : Type}

structure Channel (M : Type) where
  delivered : List M
  pending : List M

namespace Channel

def sent (ch : Channel M) : List M := ch.delivered ++ ch.pending

def empty : Channel M := ⟨[], []⟩

def put (m : M) (ch : Channel M) : Channel M := ⟨ch.delivered, ch.pending ++ [m]⟩

def get (ch : Channel M) : Option (M × Channel M) :=
  match ch.pending with
  | [] => none
  | m :: ms => some (m, ⟨ch.delivered ++ [m], ms⟩)

theorem sent_put (m : M) (ch : Channel M) : (ch.put m).sent = ch.sent ++ [m] := by
  simp [sent, put]

theorem get_some {m : M} {ch ch' : Channel M} :
    ch.get = some (m, ch') ↔
      ch.pending = m :: ch'.pending ∧ ch'.delivered = ch.delivered ++ [m] := by
  obtain ⟨delivered', pending'⟩ := ch'
  cases hp : ch.pending with
  | nil => simp [get, hp]
  | cons a ms => grind [get]

theorem sent_get {m : M} {ch ch' : Channel M} (h : ch.get = some (m, ch')) :
    ch'.sent = ch.sent := by
  obtain ⟨hp, hd⟩ := get_some.mp h
  simp [sent, hp, hd]

end Channel

/-- The messages an implementation has accepted are those of the channel, every item it stores
carries a pending message and everything it has handed out answers a delivered one. -/
structure Stands (R : M → I → Prop) (S : M → D → Prop) (ch : Channel M) (sent : List M)
    (items : List I) (received : List D) : Prop where
  sent : ch.sent = sent
  items : List.Forall₂ R ch.pending items
  received : List.Forall₂ S ch.delivered received

variable {R : M → I → Prop} {S : M → D → Prop} {ch : Channel M} {sent : List M} {items : List I}
  {received : List D}

theorem stands_empty : Stands R S Channel.empty [] [] [] := ⟨rfl, .nil, .nil⟩

theorem Stands.put (h : Stands R S ch sent items received) {m : M} {i : I} (hm : R m i) :
    Stands R S (ch.put m) (sent ++ [m]) (items ++ [i]) received := by
  refine ⟨?_, ?_, h.received⟩
  · rw [Channel.sent_put, h.sent]
  · exact List.rel_append h.items (.cons hm .nil)

/-- The first item carries the oldest message that has not been delivered, and handing out an
answer to it keeps the correspondence. -/
theorem Stands.get {i : I} (h : Stands R S ch sent (i :: items) received) :
    ∃ m ch', ch.get = some (m, ch') ∧ R m i ∧ sent[received.length]? = some m ∧
      ∀ d, S m d → Stands R S ch' sent items (received ++ [d]) := by
  obtain ⟨delivered, pending⟩ := ch
  obtain ⟨hsent, hitems, hreceived⟩ := h
  obtain ⟨m, ms, hm, hms, heq⟩ := List.forall₂_cons_right_iff.mp hitems
  obtain rfl : pending = m :: ms := heq
  have hget : Channel.get ⟨delivered, m :: ms⟩ = some (m, ⟨delivered ++ [m], ms⟩) := rfl
  refine ⟨m, _, hget, hm, ?_, fun d hd => ⟨?_, hms, ?_⟩⟩
  · rw [← hsent, ← hreceived.length_eq]
    simp [Channel.sent]
  · rw [Channel.sent_get hget, hsent]
  · exact List.rel_append hreceived (.cons hd .nil)

/-- First in first out: what was handed out at a position answers the message that was
accepted at this position. -/
theorem Stands.answers (h : Stands R S ch sent items received) {k : ℕ} {d : D}
    (hd : received[k]? = some d) : ∃ m, sent[k]? = some m ∧ S m d := by
  obtain ⟨hk, rfl⟩ := List.getElem?_eq_some_iff.mp hd
  have hk' : k < ch.delivered.length := h.received.length_eq ▸ hk
  refine ⟨ch.delivered[k], ?_, h.received.get hk' hk⟩
  rw [← h.sent, Channel.sent, List.getElem?_append_left hk', List.getElem?_eq_getElem hk']

end LibPosix.Fifo
