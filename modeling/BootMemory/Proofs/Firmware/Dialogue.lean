import BootMemory.Proofs.Firmware.Custody

/-!
# Dialogues with a firmware

What an action does to the outside world is the list of its requests with their
answers.  Such a list is a dialogue with a firmware when each answer is the one that the
firmware gives in the state that the earlier requests have left it in.

A statement about an action says what its requests and its value are together.  It is
proved by walking through the action once, and it holds on every firmware; what follows
on a particular firmware is then a matter of the list alone.

Main results:

- Definition {lit}`Services.Dialogue`: the answers in a list are the firmware's own.
- Definition {lit}`Services.Conducts`: what an action asks and what it ends with.
- Theorem {lit}`Services.Conducts.bind`: an action in sequence asks what its first part
  asks and then what its second part asks.
-/

namespace BootMemory

namespace Services

variable {σ α β : Type}

/-- Requests that are put to a firmware in order, each with the firmware's own answer.
A look at memory can change the firmware's state, but it is no request. -/
inductive Dialogue (services : Services σ) : σ → List Exchange → σ → Prop
  | nil (firmware : σ) : Dialogue services firmware [] firmware
  | allocatePages {firmware last : σ} {rest : List Exchange} (placement : Placement)
      (type : MemoryType) (pages : UInt64)
      (h : Dialogue services (services.allocatePages placement type pages firmware).2 rest last) :
      Dialogue services firmware
        (.allocatePages placement type pages
          (services.allocatePages placement type pages firmware).1 :: rest) last
  | freePages {firmware last : σ} {rest : List Exchange} (range : PageRange)
      (h : Dialogue services (services.freePages range firmware).2 rest last) :
      Dialogue services firmware
        (.freePages range (services.freePages range firmware).1 :: rest) last
  | allocatePool {firmware last : σ} {rest : List Exchange} (type : MemoryType) (size : UInt64)
      (h : Dialogue services (services.allocatePool type size firmware).2 rest last) :
      Dialogue services firmware
        (.allocatePool type size (services.allocatePool type size firmware).1 :: rest) last
  | freePool {firmware last : σ} {rest : List Exchange} (buffer : UInt64)
      (h : Dialogue services (services.freePool buffer firmware).2 rest last) :
      Dialogue services firmware
        (.freePool buffer (services.freePool buffer firmware).1 :: rest) last
  | getMemoryMap {firmware last : σ} {rest : List Exchange} (buffer : List UInt8)
      (h : Dialogue services (services.getMemoryMap buffer firmware).2 rest last) :
      Dialogue services firmware
        (.getMemoryMap buffer (services.getMemoryMap buffer firmware).1 :: rest) last
  | reach {firmware last : σ} {rest : List Exchange} (address : UInt64)
      (h : Dialogue services (services.reach address firmware).2 rest last) :
      Dialogue services firmware rest last

/-- A dialogue that goes on where another one ended is one dialogue. -/
theorem Dialogue.append {services : Services σ} {first middle last : σ}
    {calls rest : List Exchange} (hcalls : services.Dialogue first calls middle)
    (hrest : services.Dialogue middle rest last) :
    services.Dialogue first (calls ++ rest) last := by
  induction hcalls with
  | nil => exact hrest
  | allocatePages placement type pages _ ih => exact .allocatePages placement type pages (ih hrest)
  | freePages range _ ih => exact .freePages range (ih hrest)
  | allocatePool type size _ ih => exact .allocatePool type size (ih hrest)
  | freePool buffer _ ih => exact .freePool buffer (ih hrest)
  | getMemoryMap buffer _ ih => exact .getMemoryMap buffer (ih hrest)
  | reach address _ ih => exact .reach address (ih hrest)

/-- An action holds a dialogue with a firmware; its requests and its value are together
as {lit}`post` says. -/
structure Conducts (services : Services σ) (action : Boot σ α) (firmware : σ)
    (post : List Exchange → α → Prop) : Prop where
  dialogue : services.Dialogue firmware (action.run firmware).exchanges
    (action.run firmware).firmware
  ends : post (action.run firmware).exchanges (action.run firmware).value

end Services

namespace Boot

variable {σ α β : Type}

/-- An action in sequence sends the requests of both parts. -/
theorem exchanges_bind (action : Boot σ α) (next : α → Boot σ β) (firmware : σ) :
    ((action >>= next).run firmware).exchanges =
      (action.run firmware).exchanges ++
        ((next (action.run firmware).value).run (action.run firmware).firmware).exchanges :=
  List.filterMap_append

/-- It ends with the value of the second part. -/
theorem value_bind (action : Boot σ α) (next : α → Boot σ β) (firmware : σ) :
    ((action >>= next).run firmware).value =
      ((next (action.run firmware).value).run (action.run firmware).firmware).value := rfl

/-- Reports are no requests. -/
theorem exchanges_notes (messages : List Message) (firmware : σ) :
    ((notes messages : Boot σ Unit).run firmware).exchanges = [] := by
  apply List.filterMap_eq_nil_iff.2
  intro event hmem
  obtain ⟨message, _, rfl⟩ := List.mem_map.1 hmem
  rfl

end Boot

namespace Services.Conducts

variable {σ α β : Type} {services : Services σ} {firmware : σ}
  {post : List Exchange → α → Prop}

/-! ## Actions in sequence -/

theorem mono {action : Boot σ α} {weaker : List Exchange → α → Prop}
    (h : services.Conducts action firmware post)
    (hpost : ∀ calls value, post calls value → weaker calls value) :
    services.Conducts action firmware weaker :=
  ⟨h.dialogue, hpost _ _ h.ends⟩

theorem pure {value : α} (h : post [] value) :
    services.Conducts (Pure.pure value) firmware post :=
  ⟨.nil firmware, h⟩

/-- The second part of an action goes on where the first part ended. -/
theorem bind_run {action : Boot σ β} {next : β → Boot σ α}
    (haction : services.Dialogue firmware (action.run firmware).exchanges
      (action.run firmware).firmware)
    (hnext : services.Conducts (next (action.run firmware).value) (action.run firmware).firmware
      fun rest result => post ((action.run firmware).exchanges ++ rest) result) :
    services.Conducts (action >>= next) firmware post := by
  refine ⟨?_, ?_⟩
  · rw [Boot.exchanges_bind]
    exact haction.append hnext.dialogue
  · rw [Boot.exchanges_bind]
    exact hnext.ends

/-- An action in sequence asks what its first part asks and then what its second part
asks. -/
theorem bind {action : Boot σ β} {next : β → Boot σ α} {middle : List Exchange → β → Prop}
    (haction : services.Conducts action firmware middle)
    (hnext : ∀ calls value after, middle calls value →
      services.Conducts (next value) after fun rest result => post (calls ++ rest) result) :
    services.Conducts (action >>= next) firmware post :=
  bind_run haction.dialogue (hnext _ _ _ haction.ends)

/-- What comes after the last request does not add to the list. -/
theorem bind_pure {action : Boot σ β} {next : β → Boot σ α} {middle : List Exchange → β → Prop}
    (haction : services.Conducts action firmware middle)
    (hnext : ∀ calls value, middle calls value →
      ∃ result, next value = Pure.pure result ∧ post calls result) :
    services.Conducts (action >>= next) firmware post := by
  refine haction.bind ?_
  intro calls value after hmiddle
  obtain ⟨result, heq, hpost⟩ := hnext calls value hmiddle
  rw [heq]
  refine .pure ?_
  rw [List.append_nil]
  exact hpost

/-- A report is no request. -/
theorem note {message : Message} {post : List Exchange → Unit → Prop} (h : post [] ()) :
    services.Conducts (Boot.note message) firmware post :=
  ⟨.nil firmware, h⟩

theorem note_bind {message : Message} {next : Unit → Boot σ α}
    (h : services.Conducts (next ()) firmware post) :
    services.Conducts (Boot.note message >>= next) firmware post :=
  ⟨h.dialogue, h.ends⟩

theorem notes_bind {messages : List Message} {next : Unit → Boot σ α}
    (h : services.Conducts (next ()) firmware post) :
    services.Conducts (Boot.notes messages >>= next) firmware post := by
  have hcalls : ((Boot.notes messages >>= next).run firmware).exchanges =
      ((next ()).run firmware).exchanges := by
    rw [Boot.exchanges_bind, Boot.exchanges_notes, List.nil_append]
    rfl
  refine ⟨?_, ?_⟩
  · rw [hcalls]
    exact h.dialogue
  · rw [hcalls]
    exact h.ends

/-! ## Requests -/

/-- A request for pages is granted or refused. -/
theorem requestPages_bind {placement : Placement} {type : MemoryType} {pages : UInt64}
    {next : Except Status UInt64 → Boot σ α}
    (hrefused : ∀ reply after, reply.status ≠ .success →
      services.Conducts (next (.error reply.status)) after fun rest result =>
        post (.allocatePages placement type pages reply :: rest) result)
    (hgranted : ∀ reply after, reply.status = .success →
      services.Conducts (next (.ok reply.address)) after fun rest result =>
        post (.allocatePages placement type pages reply :: rest) result) :
    services.Conducts (services.requestPages placement type pages >>= next) firmware post := by
  have hnext : services.Conducts
      (next ((services.allocatePages placement type pages firmware).1.status.guard
        (services.allocatePages placement type pages firmware).1.address))
      (services.allocatePages placement type pages firmware).2 fun rest result =>
        post (.allocatePages placement type pages
          (services.allocatePages placement type pages firmware).1 :: rest) result := by
    by_cases hstatus :
        (services.allocatePages placement type pages firmware).1.status = .success
    · rw [hstatus, Status.guard_success]
      exact hgranted _ _ hstatus
    · rw [Status.guard_of_ne_success hstatus]
      exact hrefused _ _ hstatus
  exact ⟨.allocatePages placement type pages hnext.dialogue, hnext.ends⟩

/-- A return of pages is accepted or refused. -/
theorem releasePages_bind {range : PageRange} {next : Except Status Unit → Boot σ α}
    (hrefused : ∀ status after, status ≠ .success →
      services.Conducts (next (.error status)) after fun rest result =>
        post (.freePages range status :: rest) result)
    (hreleased : ∀ after, services.Conducts (next (.ok ())) after fun rest result =>
      post (.freePages range .success :: rest) result) :
    services.Conducts (services.releasePages range >>= next) firmware post := by
  have hnext : services.Conducts (next ((services.freePages range firmware).1.guard ()))
      (services.freePages range firmware).2 fun rest result =>
        post (.freePages range (services.freePages range firmware).1 :: rest) result := by
    by_cases hstatus : (services.freePages range firmware).1 = .success
    · rw [hstatus, Status.guard_success]
      exact hreleased _
    · rw [Status.guard_of_ne_success hstatus]
      exact hrefused _ _ hstatus
  exact ⟨.freePages range hnext.dialogue, hnext.ends⟩

theorem requestPool_bind {type : MemoryType} {size : UInt64}
    {next : Except Status UInt64 → Boot σ α}
    (h : ∀ reply after, services.Conducts (next (poolBuffer reply)) after fun rest result =>
      post (.allocatePool type size reply :: rest) result) :
    services.Conducts (services.requestPool type size >>= next) firmware post :=
  have hnext := h (services.allocatePool type size firmware).1
    (services.allocatePool type size firmware).2
  ⟨.allocatePool type size hnext.dialogue, hnext.ends⟩

theorem releasePool_bind {buffer : UInt64} {next : Except Status Unit → Boot σ α}
    (h : ∀ status after, services.Conducts (next (status.guard ())) after fun rest result =>
      post (.freePool buffer status :: rest) result) :
    services.Conducts (services.releasePool buffer >>= next) firmware post :=
  have hnext := h (services.freePool buffer firmware).1 (services.freePool buffer firmware).2
  ⟨.freePool buffer hnext.dialogue, hnext.ends⟩

/-- A query of the map leaves a buffer that the firmware's reply has written over. -/
theorem fetchMap_bind_reply {buffer : List UInt8}
    {next : Except MemoryError MapOutcome × List UInt8 → Boot σ α}
    (h : services.Conducts
      (next (MapOutcome.ofAnswer (services.getMemoryMap buffer firmware).1.status
          (services.getMemoryMap buffer firmware).1.layout,
        overwrite buffer (services.getMemoryMap buffer firmware).1.written))
      (services.getMemoryMap buffer firmware).2 fun rest result =>
        post (.getMemoryMap buffer (services.getMemoryMap buffer firmware).1 :: rest) result) :
    services.Conducts (services.fetchMap buffer >>= next) firmware post :=
  ⟨.getMemoryMap buffer h.dialogue, h.ends⟩

/-! ## Looks at memory -/

theorem reachable_bind {address : UInt64} {next : Bool → Boot σ α}
    (h : ∀ reached after, services.Conducts (next reached) after post) :
    services.Conducts (services.reachable address >>= next) firmware post :=
  have hnext := h (services.reach address firmware).1 (services.reach address firmware).2
  ⟨.reach address hnext.dialogue, hnext.ends⟩

/-- A window on memory has the bytes that memory holds. -/
theorem window_bind_contents {address : UInt64} {count : Nat} {next : List UInt8 → Boot σ α}
    (h : services.Conducts (next (services.contents firmware address count)) firmware post) :
    services.Conducts (services.window address count >>= next) firmware post :=
  ⟨h.dialogue, h.ends⟩

end Services.Conducts

end BootMemory
