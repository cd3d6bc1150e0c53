import BootMemory.Boot

/-!
# How an action ends

A statement about an action says how it ends when it starts in some state of the
firmware: what its value and the firmware are then, and what it did on the way.  Such
statements compose like the actions do.

Main results:

- Definition {lit}`Boot.Ensures` is the statement.
- Theorem {lit}`Boot.Ensures.bind`: an action in sequence ends as its second part
  does, from where the first part ended.
-/

namespace BootMemory.Boot

variable {σ α β : Type}

/-- An action that starts in a state of the firmware ends as {lit}`post` says and does
only what {lit}`admits` allows. -/
structure Ensures (admits : Event → Prop) (action : Boot σ α) (firmware : σ)
    (post : α → σ → Prop) : Prop where
  ends : post (action.run firmware).value (action.run firmware).firmware
  keeps : ∀ event ∈ (action.run firmware).events, admits event

namespace Ensures

variable {admits : Event → Prop} {firmware : σ}

theorem pure {value : α} {post : α → σ → Prop} (h : post value firmware) :
    Ensures admits (Pure.pure value) firmware post := by
  refine ⟨h, ?_⟩
  intro event hmem
  rw [pure_run] at hmem
  cases hmem

/-- An action in sequence ends as its second part does, from where the first part
ended. -/
theorem bind {action : Boot σ α} {next : α → Boot σ β} {middle : α → σ → Prop}
    {post : β → σ → Prop} (haction : Ensures admits action firmware middle)
    (hnext : ∀ value after, middle value after → Ensures admits (next value) after post) :
    Ensures admits (action >>= next) firmware post := by
  have hsecond := hnext _ _ haction.ends
  refine ⟨hsecond.ends, ?_⟩
  intro event hmem
  rw [bind_run] at hmem
  rcases List.mem_append.1 hmem with hfirst | hlast
  · exact haction.keeps event hfirst
  · exact hsecond.keeps event hlast

/-- What an action does may be allowed under a weaker condition. -/
theorem allow {allowed : Event → Prop} {action : Boot σ α} {post : α → σ → Prop}
    (h : Ensures admits action firmware post) (hadmits : ∀ event, admits event → allowed event) :
    Ensures allowed action firmware post :=
  ⟨h.ends, fun event hmem => hadmits event (h.keeps event hmem)⟩

/-- A report in front of an action does not matter to how the action ends. -/
theorem note_bind {message : Message} {action : Boot σ α} {post : α → σ → Prop}
    (hadmits : admits (.note message)) (h : Ensures admits action firmware post) :
    Ensures admits (note message >>= fun _ => action) firmware post := by
  refine ⟨h.ends, ?_⟩
  intro event hmem
  rw [bind_run, note_run] at hmem
  rcases List.mem_cons.1 hmem with rfl | hrest
  · exact hadmits
  · exact h.keeps event hrest

theorem notes_bind {messages : List Message} {action : Boot σ α} {post : α → σ → Prop}
    (hadmits : ∀ message, admits (.note message)) (h : Ensures admits action firmware post) :
    Ensures admits (notes messages >>= fun _ => action) firmware post := by
  refine ⟨h.ends, ?_⟩
  intro event hmem
  rw [bind_run, notes_run] at hmem
  rcases List.mem_append.1 hmem with hreport | hrest
  · obtain ⟨message, _, rfl⟩ := List.mem_map.1 hreport
    exact hadmits message
  · exact h.keeps event hrest

end Ensures

end BootMemory.Boot
