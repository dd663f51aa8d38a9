import SysProg.Bulletin.Network

namespace SysProg.Bulletin

open Relation SysProg.Transition

variable {n : Nat} {Client : Type} [DecidableEq Client]

/-! # One connection

`Hand` is what a server is doing for one client; `Session` lists the stages of the
conversation, each with the slot that is reserved for the client in it. -/

inductive Hand where
  | idle
  | pulling
  | seeking
  | granting (slot : Slot)
  | finishing (msg : Message)

def ServerControl.hand (client : Client) : ServerControl Client → Hand
  | .probing other _ _ | .probed other _ | .reserving other _ =>
      if other = client then .seeking else .idle
  | .granting other tmp => if other = client then .granting tmp else .idle
  | .loading other | .scanning other _ _ | .seen other _ _ | .showing other _ _ =>
      if other = client then .pulling else .idle
  | .finishing other msg | .unlocking other msg => if other = client then .finishing msg else .idle
  | .opening | .restoring | .polling | .crashed => .idle

def Io.hand (io : Io) : Hand :=
  match io.type with
  | .post => .seeking
  | .pull => .pulling
  | .finish => .finishing io.buf
  | _ => .idle

/-- What one system call does to the conversation with the client it is made for. -/
inductive HandStep : Hand → Hand → Effect → Prop where
  | pull : HandStep .pulling .pulling .silent
  | record (io : Io) : io.type = .record → HandStep .pulling .pulling (.reply io)
  | ended (io : Io) : io.type = .end → HandStep .pulling .idle (.reply io)
  | seek : HandStep .seeking .seeking .silent
  | full (io : Io) : io.type = .full → HandStep .seeking .idle (.reply io)
  | reserve (slot : Slot) : HandStep .seeking (.granting slot) (.reserve slot)
  | grant (slot : Slot) (io : Io) : io.type = .available → slotOf io.buf.pos = some slot →
      HandStep (.granting slot) .idle (.reply io)
  | write (msg : Message) (slot : Slot) : slotOf msg.pos = some slot →
      HandStep (.finishing msg) (.finishing msg) .silent
  | free (msg : Message) (slot : Slot) : slotOf msg.pos = some slot →
      HandStep (.finishing msg) .idle (.free slot)
  | crash (msg : Message) : slotOf msg.pos = none → HandStep (.finishing msg) .idle .silent

/-- The server still has to handle a `!finish`, if there is one, and then `ios`. -/
inductive Behind (now : ClientState) (ios : List Io) : Hand → Option Slot → Prop where
  | clear : now.requests = ios → Behind now ios .idle none
  | sent (msg : Message) (slot : Slot) :
      now.requests = ⟨.finish, msg⟩ :: ios → slotOf msg.pos = some slot →
      now.filled = some msg → Behind now ios .idle (some slot)
  | handled (msg : Message) (slot : Slot) :
      now.requests = ios → slotOf msg.pos = some slot →
      now.filled = some msg → Behind now ios (.finishing msg) (some slot)

inductive Session (now : ClientState) : Hand → Option Slot → Prop where
  | prompt (hand : Hand) (holding : Option Slot) :
      now.control = .starting ∨ now.control = .prompt → now.replies = [] →
      Behind now [] hand holding → Session now hand holding
  | askedPull (hand : Hand) (holding : Option Slot) (junk : Message) :
      now.control = .reading → now.replies = [] → Behind now [⟨.pull, junk⟩] hand holding →
      Session now hand holding
  | shown :
      now.control = .reading → now.requests = [] → (∀ io ∈ now.replies, io.type = .record) →
      Session now .pulling none
  | ended (records : List Io) (last : Io) :
      now.control = .reading → now.requests = [] → now.replies = records ++ [last] →
      (∀ io ∈ records, io.type = .record) → last.type = .end → Session now .idle none
  | askedPost (hand : Hand) (holding : Option Slot) (junk : Message) :
      now.control = .waiting → now.replies = [] → Behind now [⟨.post, junk⟩] hand holding →
      Session now hand holding
  | sought :
      now.control = .waiting → now.requests = [] → now.replies = [] → Session now .seeking none
  | reserved (slot : Slot) :
      now.control = .waiting → now.requests = [] → now.replies = [] →
      Session now (.granting slot) (some slot)
  | refused (io : Io) :
      now.control = .waiting → now.requests = [] → now.replies = [io] → io.type = .full →
      Session now .idle none
  | granted (io : Io) (slot : Slot) :
      now.control = .waiting → now.requests = [] → now.replies = [io] → io.type = .available →
      slotOf io.buf.pos = some slot → Session now .idle (some slot)
  | typing (msg : Message) (slot : Slot) :
      now.control = .typing msg → now.requests = [] → now.replies = [] →
      slotOf msg.pos = some slot → Session now .idle (some slot)
  | leaving (hand : Hand) (holding : Option Slot) (junk : Message) :
      now.control = .closed → now.replies = [] → Behind now [⟨.exit, junk⟩] hand holding →
      Session now hand holding
  | left :
      now.control = .closed → now.replies = [] → now.requests = [] → Session now .idle none

variable {now after : ClientState} {hand hand' : Hand} {holding : Option Slot} {io : Io}
  {ios : List Io} {effect : Effect}

theorem Behind.send (behind : Behind now [] hand holding) (io : Io) (control : ClientControl) :
    Behind (now.send io control) [io] hand holding := by
  cases behind with
  | clear none => exact .clear (by simp [ClientState.send, none])
  | sent msg slot requests pos filled =>
      exact .sent msg slot (by simp [ClientState.send, requests]) pos filled
  | handled msg slot none pos filled =>
      exact .handled msg slot (by simp [ClientState.send, none]) pos filled

namespace Session

/-- Whatever client.c does keeps to the conversation. -/
theorem move {move : ClientMove} (session : Session now hand holding)
    (moved : now.move move = some after) : Session after hand holding := by
  unfold ClientState.move at moved
  cases session with
  | prompt _ _ control none behind =>
      cases control with
      | inl control =>
          rw [control] at moved
          cases move with
          | connect junk =>
              cases moved
              exact .askedPull hand holding junk rfl none (behind.send _ _)
          | _ => cases moved
      | inr control =>
          rw [control] at moved
          cases move with
          | exit junk =>
              cases moved
              exact .leaving hand holding junk rfl none (behind.send _ _)
          | pull junk =>
              cases moved
              exact .askedPull hand holding junk rfl none (behind.send _ _)
          | post junk =>
              cases moved
              exact .askedPost hand holding junk rfl none (behind.send _ _)
          | other =>
              cases moved
              exact .prompt hand holding (.inr control) none behind
          | _ => cases moved
  | askedPull _ _ junk control none behind =>
      rw [control] at moved
      cases move with
      | read =>
          simp only [none] at moved
          cases moved
      | _ => cases moved
  | shown control none records =>
      rw [control] at moved
      cases move with
      | read =>
          simp only at moved
          split at moved
          · cases moved
          · rename_i receive rest replies
            have isRecord : receive.type = .record := records receive (by simp [replies])
            rw [if_neg (by simp [isRecord])] at moved
            cases moved
            exact .shown rfl none fun io member => records io (by simp [replies, member])
      | _ => cases moved
  | ended records last control none replies isRecord isEnd =>
      rw [control] at moved
      cases move with
      | read =>
          simp only [replies] at moved
          cases records with
          | nil =>
              rw [List.nil_append] at moved
              simp only [isEnd, if_true] at moved
              cases moved
              exact .prompt .idle _ (.inr rfl) rfl (.clear none)
          | cons receive rest =>
              rw [List.cons_append] at moved
              simp only [isRecord receive (by simp), reduceCtorEq, if_false] at moved
              cases moved
              exact .ended rest last rfl none rfl
                (fun io member => isRecord io (by simp [member])) isEnd
      | _ => cases moved
  | askedPost _ _ junk control none behind =>
      rw [control] at moved
      cases move with
      | read =>
          simp only [none] at moved
          cases moved
      | _ => cases moved
  | sought control none none' =>
      rw [control] at moved
      cases move with
      | read =>
          simp only [none'] at moved
          cases moved
      | _ => cases moved
  | reserved slot control none none' =>
      rw [control] at moved
      cases move with
      | read =>
          simp only [none'] at moved
          cases moved
      | _ => cases moved
  | refused io control none replies isFull =>
      rw [control] at moved
      cases move with
      | read =>
          simp only [replies, isFull, if_true] at moved
          cases moved
          exact .prompt .idle _ (.inr rfl) rfl (.clear none)
      | _ => cases moved
  | granted io slot control none replies isAvailable pos =>
      rw [control] at moved
      cases move with
      | read =>
          simp only [replies, isAvailable, reduceCtorEq, if_false] at moved
          cases moved
          exact .typing io.buf slot rfl none rfl pos
      | _ => cases moved
  | typing msg slot control none none' pos =>
      rw [control] at moved
      cases move with
      | fill From Content =>
          cases moved
          let msg := { msg with rd := ⟨scanf msg.rd.From From, scanf msg.rd.Content Content⟩ }
          refine .prompt .idle _ (.inr rfl) none' (.sent msg slot ?_ pos rfl)
          simp [ClientState.send, none, msg]
      | _ => cases moved
  | leaving _ _ junk control none behind =>
      rw [control] at moved
      cases move <;> cases moved
  | left control none none' =>
      rw [control] at moved
      cases move <;> cases moved

theorem serve (session : Session now .idle holding) {rest : List Io}
    (next : now.requests = io :: rest) :
    Session { now with requests := rest } io.hand holding := by
  have behind : ∀ ios, Behind now ios .idle holding →
      (∃ msg slot, io = ⟨.finish, msg⟩ ∧ rest = ios ∧ holding = some slot ∧
        Behind { now with requests := rest } ios (.finishing msg) holding) ∨
      (ios = io :: rest ∧ holding = none) := by
    intro ios behind
    cases behind with
    | clear requests => exact .inr ⟨requests.symm.trans next, rfl⟩
    | sent msg slot requests pos filled =>
        rw [requests] at next
        cases next
        exact .inl ⟨msg, slot, rfl, rfl, rfl, .handled msg slot rfl pos filled⟩
  cases session with
  | prompt _ _ control none still =>
      cases behind [] still with
      | inl finish =>
          obtain ⟨msg, slot, rfl, rfl, _, handled⟩ := finish
          exact .prompt _ _ control none handled
      | inr other => cases other.1
  | askedPull _ _ junk control none still =>
      cases behind _ still with
      | inl finish =>
          obtain ⟨msg, slot, rfl, rfl, _, handled⟩ := finish
          exact .askedPull _ _ junk control none handled
      | inr other =>
          obtain ⟨same, rfl⟩ := other
          cases same
          exact .shown control rfl (by simp [none])
  | askedPost _ _ junk control none still =>
      cases behind _ still with
      | inl finish =>
          obtain ⟨msg, slot, rfl, rfl, _, handled⟩ := finish
          exact .askedPost _ _ junk control none handled
      | inr other =>
          obtain ⟨same, rfl⟩ := other
          cases same
          exact .sought control rfl none
  | leaving _ _ junk control none still =>
      cases behind _ still with
      | inl finish =>
          obtain ⟨msg, slot, rfl, rfl, _, handled⟩ := finish
          exact .leaving _ _ junk control none handled
      | inr other =>
          obtain ⟨same, rfl⟩ := other
          cases same
          exact .left control none rfl
  | ended _ _ _ none => simp [none] at next
  | refused _ _ none => simp [none] at next
  | granted _ _ _ none => simp [none] at next
  | typing _ _ _ none => simp [none] at next
  | left _ _ none => simp [none] at next

end Session

def ClientState.receive (effect : Effect) (now : ClientState) : ClientState :=
  match effect with
  | .reply io => { now with replies := now.replies ++ [io] }
  | _ => now

def Effect.hold (effect : Effect) (held : Option Slot) : Option Slot :=
  match effect with
  | .reserve slot => some slot
  | .free _ => none
  | _ => held

namespace Session

theorem of_pulling (session : Session now .pulling holding) :
    now.control = .reading ∧ now.requests = [] ∧ (∀ io ∈ now.replies, io.type = .record) ∧
      holding = none := by
  cases session with
  | shown control none records => exact ⟨control, none, records, rfl⟩
  | prompt _ _ _ _ behind => cases behind
  | askedPull _ _ _ _ _ behind => cases behind
  | askedPost _ _ _ _ _ behind => cases behind
  | leaving _ _ _ _ _ behind => cases behind

theorem of_seeking (session : Session now .seeking holding) :
    now.control = .waiting ∧ now.requests = [] ∧ now.replies = [] ∧ holding = none := by
  cases session with
  | sought control none none' => exact ⟨control, none, none', rfl⟩
  | prompt _ _ _ _ behind => cases behind
  | askedPull _ _ _ _ _ behind => cases behind
  | askedPost _ _ _ _ _ behind => cases behind
  | leaving _ _ _ _ _ behind => cases behind

theorem of_granting {slot : Slot} (session : Session now (.granting slot) holding) :
    now.control = .waiting ∧ now.requests = [] ∧ now.replies = [] ∧ holding = some slot := by
  cases session with
  | reserved _ control none none' => exact ⟨control, none, none', rfl⟩
  | prompt _ _ _ _ behind => cases behind
  | askedPull _ _ _ _ _ behind => cases behind
  | askedPost _ _ _ _ _ behind => cases behind
  | leaving _ _ _ _ _ behind => cases behind

/-- A `!finish` in hand is the post its sender typed for the slot it holds. -/
theorem of_finishing {msg : Message} (session : Session now (.finishing msg) holding) :
    ∃ slot, slotOf msg.pos = some slot ∧ holding = some slot ∧ now.filled = some msg := by
  have handled : ∀ {ios}, Behind now ios (.finishing msg) holding →
      ∃ slot, slotOf msg.pos = some slot ∧ holding = some slot ∧ now.filled = some msg := by
    intro ios behind
    cases behind with
    | handled _ slot _ pos filled => exact ⟨slot, pos, rfl, filled⟩
  cases session with
  | prompt _ _ _ _ behind => exact handled behind
  | askedPull _ _ _ _ _ behind => exact handled behind
  | askedPost _ _ _ _ _ behind => exact handled behind
  | leaving _ _ _ _ _ behind => exact handled behind

theorem finished {msg : Message} (session : Session now (.finishing msg) holding) :
    Session now .idle none := by
  have cleared : ∀ {ios}, Behind now ios (.finishing msg) holding →
      Behind now ios .idle none := by
    intro ios behind
    cases behind with
    | handled _ _ requests => exact .clear requests
  cases session with
  | prompt _ _ control none behind => exact .prompt _ _ control none (cleared behind)
  | askedPull _ _ junk control none behind => exact .askedPull _ _ junk control none (cleared behind)
  | askedPost _ _ junk control none behind => exact .askedPost _ _ junk control none (cleared behind)
  | leaving _ _ junk control none behind => exact .leaving _ _ junk control none (cleared behind)

/-- Whatever the server does for the client keeps to the conversation. -/
theorem advance (session : Session now hand holding) (step : HandStep hand hand' effect) :
    Session (now.receive effect) hand' (effect.hold holding) := by
  cases step with
  | pull => exact session
  | record io isRecord =>
      obtain ⟨control, none, records, rfl⟩ := session.of_pulling
      refine .shown control none ?_
      intro other member
      rw [ClientState.receive, List.mem_append, List.mem_singleton] at member
      cases member with
      | inl earlier => exact records other earlier
      | inr last => rw [last, isRecord]
  | ended io isEnd =>
      obtain ⟨control, none, records, rfl⟩ := session.of_pulling
      have replies : (now.receive (.reply io)).replies = now.replies ++ [io] := rfl
      exact .ended now.replies io control none replies records isEnd
  | seek => exact session
  | full io isFull =>
      obtain ⟨control, none, none', rfl⟩ := session.of_seeking
      have replies : (now.receive (.reply io)).replies = [io] := by
        simp [ClientState.receive, none']
      exact .refused io control none replies isFull
  | reserve slot =>
      obtain ⟨control, none, none', rfl⟩ := session.of_seeking
      exact .reserved slot control none none'
  | grant slot io isAvailable pos =>
      obtain ⟨control, none, none', rfl⟩ := session.of_granting
      have replies : (now.receive (.reply io)).replies = [io] := by
        simp [ClientState.receive, none']
      exact .granted io slot control none replies isAvailable pos
  | write msg slot pos => exact session
  | free msg slot pos => exact session.finished
  | crash msg outside =>
      obtain ⟨slot, pos, _⟩ := session.of_finishing
      rw [outside] at pos
      cases pos

theorem reserves {slot : Slot} (session : Session now hand holding)
    (step : HandStep hand hand' (.reserve slot)) : holding = none := by
  cases step with
  | reserve => exact session.of_seeking.2.2.2

/-- A `!finish` gives back the slot its sender holds. -/
theorem frees {slot : Slot} (session : Session now hand holding)
    (step : HandStep hand hand' (.free slot)) : holding = some slot := by
  cases step with
  | free msg _ pos =>
      obtain ⟨other, pos', held, _⟩ := session.of_finishing
      rw [held, ← pos', pos]

end Session

end SysProg.Bulletin
