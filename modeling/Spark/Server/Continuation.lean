import Spark.Server.Live

/-!
# Live continuation joins no two conversations

A binding is compared with the session by its token count alone. It may be trusted as long as it
is `Attached`: whenever the counts agree, the tokens do. Every path of a request either clears a
binding, records it anew, or only puts tokens behind those it was recorded for, with two
exceptions: a prefill that fails while the job is not cancelled, and a tool checkpoint rebuild
that fails.

* **`serve_sound`** — one request.
* **`failed_prefill_joins_conversations`** — the first exception.
* **`serveAll_sound`** — every run without them.
-/

namespace Spark.Server

/-- If the counts agree, the tokens are those the binding was recorded for. -/
def Attached (tokens : List Nat) (binding : Binding) : Prop :=
  binding.valid = true → tokens.length = binding.liveTokens → binding.Describes tokens

structure SlotInv (slot : Slot) : Prop where
  responses : Attached slot.tokens slot.responses
  anthropic : Attached slot.tokens slot.anthropic
  thinking : Attached slot.tokens slot.thinking

/-- A binding is used for the tokens it was recorded for, and a continued prompt starts with
them. -/
def Event.Sound : Event → Prop
  | .continued binding tokens prompt => binding.Describes tokens ∧ tokens <+: prompt
  | .stored binding tokens => binding.Describes tokens

theorem attached_of_invalid {tokens : List Nat} {binding : Binding}
    (h : binding.valid = false) : Attached tokens binding := by
  intro hvalid
  rw [h] at hvalid
  cases hvalid

theorem attached_cleared (tokens : List Nat) : Attached tokens .cleared :=
  attached_of_invalid rfl

/-- Tokens behind the described ones change nothing, and neither does giving the session up. -/
theorem attached_of_grown {live tokens : List Nat} {binding : Binding}
    (hdescribes : binding.Describes live) (hcount : live.length = binding.liveTokens)
    (hgrown : tokens = [] ∨ live <+: tokens) : Attached tokens binding := by
  intro _ hlength
  have hsame : live.length = tokens.length := hcount.trans hlength.symm
  rcases hgrown with rfl | hstarts
  · rw [List.length_eq_zero_iff.mp hsame] at hdescribes
    exact hdescribes
  · rw [← hstarts.eq_of_length hsame]
    exact hdescribes

theorem slotInv_cleared (slot : Slot) : SlotInv slot.liveStateClear :=
  ⟨attached_cleared _, attached_cleared _, attached_cleared _⟩

/-! ## The engine underneath

`Slot.sync` is what `ds4_session_sync` does to the token list, whatever the device answers.
-/

section Engine

open Glm

variable {σ Λ : Type} (target : Recurrent Nat σ Λ) (config : Config)

/-- The chunk loop leaves a piece of the rest behind the checkpoint, all of it if it succeeds. -/
theorem prefillLoop_takes (answers : SyncAnswers σ Λ) :
    ∀ (fuel round : Nat) (rest : List Nat) (session : Ds4Session σ Λ), rest.length ≤ fuel →
      ∃ count,
        (prefillLoop target config answers fuel round rest session).1.checkpoint =
          session.checkpoint ++ rest.take count ∧
        ((prefillLoop target config answers fuel round rest session).2 = .ok →
          count = rest.length) := by
  intro fuel
  induction fuel with
  | zero =>
    intro round rest session hfuel
    exact ⟨0, by simp [prefillLoop], fun _ => by omega⟩
  | succ fuel ih =>
    intro round rest session hfuel
    unfold prefillLoop
    split
    · next hnil => exact ⟨0, by simp, fun _ => by simp [hnil]⟩
    · next hmore =>
      have hpos := chunkTokens_bounds config session.checkpoint.length
        (List.length_pos_iff.mpr hmore)
      split
      · exact ⟨0, by simpa using (capDenseCache_frame config _).checkpoint, fun h => by cases h⟩
      · simp only
        generalize chunkTokens config session.checkpoint.length rest.length = chunk at *
        cases answers.forward round with
        | failed graph logits =>
          exact ⟨0, by simpa [forward] using (capDenseCache_frame config _).checkpoint, fun h => by cases h⟩
        | ok =>
          simp only [forward]
          obtain ⟨count, hcheckpoint, hall⟩ := ih (round + 1) (rest.drop chunk) _
            (by rw [List.length_drop]; omega)
          refine ⟨chunk + count, ?_, fun hok => ?_⟩
          · rw [hcheckpoint, (noteChunk_frame config _ _ chunk).checkpoint, List.take_add,
              List.append_assoc]
          · rw [hall hok, List.length_drop]
            omega

/-- The answer that explains a loop which left `front` and a piece of `rest`. -/
theorem answer_of_taken (slot : Slot) {front rest left : List Nat} {result : SyncResult}
    (h : ∃ count, left = front ++ rest.take count ∧ (result = .ok → count = rest.length)) :
    ∃ answer : SyncAnswer, (slot.sync (front ++ rest) answer).tokens = left ∧
      (answer.isOk = true ↔ result = .ok) := by
  obtain ⟨count, hleft, hall⟩ := h
  by_cases hok : result = .ok
  · refine ⟨.ok, ?_, by simp [SyncAnswer.isOk, hok]⟩
    rw [hleft, hall hok, List.take_length]
    rfl
  · refine ⟨.failed (some (front.length + count)) false, ?_, by simp [SyncAnswer.isOk, hok]⟩
    rw [hleft]
    show (front ++ rest).take (front.length + count) = front ++ rest.take count
    rw [List.take_length_add_append]

theorem sync_answered (slot : Slot) (session : Ds4Session σ Λ)
    (hslot : slot.tokens = session.checkpoint) (prompt : List Nat) (answers : SyncAnswers σ Λ) :
    ∃ answer : SyncAnswer,
      (slot.sync prompt answer).tokens =
        (Glm.sync target config session prompt answers).1.checkpoint ∧
      (answer.isOk = true ↔ (Glm.sync target config session prompt answers).2 = .ok) := by
  unfold Glm.sync
  split
  · exact ⟨.failed none false, hslot, by simp [SyncAnswer.isOk]⟩
  split
  · exact ⟨.failed none false, hslot, by simp [SyncAnswer.isOk]⟩
  split
  · exact ⟨.failed none false, hslot, by simp [SyncAnswer.isOk]⟩
  split
  · exact ⟨.failed none false, hslot, by simp [SyncAnswer.isOk]⟩
  split
  · next hresume =>
    obtain ⟨suffix, rfl⟩ := List.isPrefixOf_iff_prefix.mp (Bool.and_eq_true_iff.mp hresume).2
    rw [List.drop_left]
    exact answer_of_taken slot (prefillLoop_takes target config answers _ 0 suffix session
      (by simp))
  · cases answers.reset with
    | failed junk => exact ⟨.failed (some 0) false, rfl, by simp [SyncAnswer.isOk, resetKdaState]⟩
    | ok =>
      simp only [resetKdaState]
      have h := prefillLoop_takes target config answers prompt.length 0 prompt
        { resetDenseCache { session with checkpoint := [], checkpointValid := false } with
          graph := target.reset } (Nat.le_refl _)
      exact answer_of_taken slot h

end Engine

/-! ## Choosing the prefix -/

theorem Binding.of_visibleSuffix {binding : Binding} {pos : Nat} {text suffix : List UInt8}
    (h : binding.visibleSuffix pos text = some suffix) :
    binding.valid = true ∧ binding.liveTokens = pos := by
  unfold Binding.visibleSuffix at h
  split at h
  · next hmatch => exact ⟨hmatch.1, hmatch.2.1⟩
  · cases h

theorem Binding.of_matchesIds {binding : Binding} {ids : List String} {pos : Nat}
    (h : binding.matchesIds ids pos = true) :
    binding.valid = true ∧ binding.liveTokens = pos := by
  simp only [Binding.matchesIds, Bool.and_eq_true, decide_eq_true_eq] at h
  exact ⟨h.1.1.1.2, h.1.1.2⟩

theorem storeCurrent_sound {slot : Slot} (h : SlotInv slot) :
    ∀ event ∈ slot.storeCurrent, event.Sound := by
  intro event hevent
  unfold Slot.storeCurrent at hevent
  split at hevent
  · next hmatch =>
    rw [List.mem_singleton.mp hevent]
    exact h.responses hmatch.1 hmatch.2.1.symm
  split at hevent
  · next hmatch =>
    rw [List.mem_singleton.mp hevent]
    exact h.thinking hmatch.1 hmatch.2.1.symm
  · cases hevent

/-- What a selection promises: sound events, untouched bindings, and a continued binding that
belongs to the request's protocol. -/
structure SelectedSound (slot : Slot) (request : LiveRequest) (selected : Selected) : Prop where
  events : ∀ event ∈ selected.events, event.Sound
  responses : selected.slot.responses = slot.responses
  anthropic : selected.slot.anthropic = slot.anthropic
  thinking : selected.slot.thinking = slot.thinking
  fromResponses : selected.source = .responsesVisible ∨ selected.source = .responsesToolOutput →
    request.api = .responses
  fromAnthropic : selected.source = .anthropicToolOutput → request.api = .anthropic
  fromThinking : selected.source = .thinkingVisible →
    ∃ live, slot.thinking.Describes live ∧ live.length = slot.thinking.liveTokens ∧
      live <+: selected.prompt

theorem continueLive_sound (server : LiveServer) {slot : Slot} (source : Source)
    {binding : Binding} (hattached : Attached slot.tokens binding) (suffixText : List UInt8)
    (hvalid : binding.valid = true) (hcount : binding.liveTokens = slot.tokens.length) :
    (∀ event ∈ (continueLive server slot source binding suffixText).events, event.Sound) ∧
      slot.tokens <+: (continueLive server slot source binding suffixText).prompt := by
  have hstarts : slot.tokens <+: server.buildPrompt slot.tokens suffixText :=
    List.prefix_append _ _
  refine ⟨fun event hevent => ?_, hstarts⟩
  rw [List.mem_singleton.mp hevent]
  exact ⟨hattached hvalid hcount.symm, hstarts⟩

theorem selectDisk_sound {server : LiveServer} {slot : Slot} (h : SlotInv slot)
    (request : LiveRequest) (disk : DiskAnswer) :
    SelectedSound slot request (selectDisk server slot request disk) := by
  have hevents : ∀ event ∈ (if server.kv.enabled = true ∧
      slot.tokens.length ≥ server.kv.minTokens then slot.storeCurrent else []), event.Sound := by
    intro event hevent
    split at hevent
    · exact storeCurrent_sound h event hevent
    · cases hevent
  unfold selectDisk
  cases disk with
  | miss => exact ⟨hevents, rfl, rfl, rfl, by simp, nofun, nofun⟩
  | missInvalidated => exact ⟨hevents, rfl, rfl, rfl, by simp, nofun, nofun⟩
  | hit tokens textBytes =>
    cases tokens with
    | nil => exact ⟨hevents, rfl, rfl, rfl, by simp, nofun, nofun⟩
    | cons token tokens => exact ⟨hevents, rfl, rfl, rfl, by simp, nofun, nofun⟩

theorem selectMemory_sound {server : LiveServer} {slot : Slot} (h : SlotInv slot)
    (request : LiveRequest) (rewoundValid : Bool) (disk : DiskAnswer) :
    SelectedSound slot request (selectMemory server slot request rewoundValid disk) := by
  unfold selectMemory
  simp only
  split
  · exact ⟨nofun, rfl, rfl, rfl, by simp, nofun, nofun⟩
  split
  · exact ⟨nofun, rfl, rfl, rfl, by simp, nofun, nofun⟩
  split
  · next suffixText hthinking =>
    unfold thinkingLiveVisiblePrefix at hthinking
    split at hthinking
    · cases hthinking
    obtain ⟨text, -, hsuffix⟩ := Option.bind_eq_some_iff.mp hthinking
    obtain ⟨hvalid, hcount⟩ := Binding.of_visibleSuffix hsuffix
    obtain ⟨hevents, hstarts⟩ :=
      continueLive_sound server .thinkingVisible h.thinking suffixText hvalid hcount
    exact ⟨hevents, rfl, rfl, rfl, by simp [continueLive], nofun,
      fun _ => ⟨slot.tokens, h.thinking hvalid hcount.symm, hcount.symm, hstarts⟩⟩
  split
  · exact ⟨nofun, rfl, rfl, rfl, by simp, nofun, nofun⟩
  · exact selectDisk_sound h request disk

theorem select_sound {server : LiveServer} {slot : Slot} (h : SlotInv slot)
    (request : LiveRequest) (rewoundValid : Bool) (disk : DiskAnswer) {selected : Selected}
    (hselect : select server slot request rewoundValid disk = some selected) :
    SelectedSound slot request selected := by
  unfold select at hselect
  split at hselect
  · next suffixText hvisible =>
    cases hselect
    unfold responsesLiveVisiblePrefix at hvisible
    split at hvisible
    · cases hvisible
    · next hapi =>
      obtain ⟨text, -, hsuffix⟩ := Option.bind_eq_some_iff.mp hvisible
      obtain ⟨hvalid, hcount⟩ := Binding.of_visibleSuffix hsuffix
      exact ⟨(continueLive_sound server _ h.responses suffixText hvalid hcount).1, rfl, rfl, rfl,
        fun _ => not_not.mp (not_or.mp hapi).1, nofun, nofun⟩
  split at hselect
  · next suffixText hids =>
    cases hselect
    unfold responsesLiveContinuation at hids
    split at hids
    · next hmatch =>
      obtain ⟨hvalid, hcount⟩ := Binding.of_matchesIds hmatch.2.2
      exact ⟨(continueLive_sound server _ h.responses suffixText hvalid hcount).1, rfl, rfl, rfl,
        fun _ => hmatch.1, nofun, nofun⟩
    · cases hids
  split at hselect
  · next suffixText hids =>
    cases hselect
    unfold anthropicLiveContinuation at hids
    split at hids
    · next hmatch =>
      obtain ⟨hvalid, hcount⟩ := Binding.of_matchesIds hmatch.2.2
      exact ⟨(continueLive_sound server _ h.anthropic suffixText hvalid hcount).1, rfl, rfl, rfl,
        by simp [continueLive], fun _ => hmatch.1, nofun⟩
    · cases hids
  split at hselect
  · cases hselect
  · cases hselect
    exact selectMemory_sound h request rewoundValid disk

/-! ## Prefill and decoding -/

/-- A synchronization of the prefill fails and the job is not cancelled. -/
def prefillBreaks (server : LiveServer) (slot : Slot) (job : LiveJob) : Bool :=
  match select server slot job.request job.rewoundValid job.disk with
  | none => false
  | some selected =>
    if server.syncsCold selected && !job.prefill.cold.isOk then !job.prefill.cancelledInCold
    else !job.prefill.main.isOk && !job.prefill.cancelledInMain

/-- No binding is left to be used. -/
def Slot.Unbound (slot : Slot) : Prop :=
  slot.responses.valid = false ∧ slot.anthropic.valid = false ∧ slot.thinking.valid = false

theorem Slot.Unbound.inv {slot : Slot} (h : slot.Unbound) : SlotInv slot :=
  ⟨attached_of_invalid h.1, attached_of_invalid h.2.1, attached_of_invalid h.2.2⟩

/-- The bindings of two slots are the same. -/
structure SameBindings (before after : Slot) : Prop where
  responses : after.responses = before.responses
  anthropic : after.anthropic = before.anthropic
  thinking : after.thinking = before.thinking

theorem SameBindings.trans {first second third : Slot} (h : SameBindings first second)
    (h' : SameBindings second third) : SameBindings first third :=
  ⟨h'.responses.trans h.responses, h'.anthropic.trans h.anthropic, h'.thinking.trans h.thinking⟩

theorem SameBindings.unbound {before after : Slot} (h : SameBindings before after)
    (hbefore : before.Unbound) : after.Unbound := by
  unfold Slot.Unbound
  rw [h.responses, h.anthropic, h.thinking]
  exact hbefore

theorem sync_bindings (slot : Slot) (prompt : List Nat) (answer : SyncAnswer) :
    SameBindings slot (slot.sync prompt answer) := by
  cases answer with
  | ok => exact ⟨rfl, rfl, rfl⟩
  | failed left checkpointValid => exact ⟨rfl, rfl, rfl⟩

theorem decode_bindings (slot : Slot) (answer : DecodeAnswer) :
    SameBindings slot (slot.decode answer) := by
  unfold Slot.decode
  split
  · exact ⟨rfl, rfl, rfl⟩
  · exact ⟨rfl, rfl, rfl⟩

theorem failPrefill_inv {slot : Slot} (source : Source) {cancelled : Bool}
    (h : cancelled = false → slot.Unbound) : SlotInv (failPrefill slot source cancelled) := by
  unfold failPrefill
  cases cancelled with
  | true => exact slotInv_cleared _
  | false =>
    have hunbound := h rfl
    simp only [Bool.false_eq_true, if_false]
    split
    · have hsame : SameBindings slot slot.invalidate := ⟨rfl, rfl, rfl⟩
      exact (hsame.unbound hunbound).inv
    · exact hunbound.inv

/-- A prefill that ends the request leaves no binding that could be wrong. -/
theorem prefill_error {server : LiveServer} {selected : Selected} {answers : PrefillAnswers}
    {after : Slot} (hrun : prefill server selected answers = .error after)
    (hbreaks : (if server.syncsCold selected && !answers.cold.isOk then !answers.cancelledInCold
      else !answers.main.isOk && !answers.cancelledInMain) = true → selected.slot.Unbound) :
    SlotInv after := by
  unfold prefill at hrun
  simp only at hrun
  generalize hcold : (if server.syncsCold selected = true then
      selected.slot.sync
        (selected.prompt.take (server.coldStoreLen selected.cached selected.prompt)) answers.cold
    else selected.slot) = cold at hrun
  have hsame : SameBindings selected.slot cold := by
    rw [← hcold]
    split
    · exact sync_bindings ..
    · exact ⟨rfl, rfl, rfl⟩
  split at hrun
  · next hfailed =>
    cases hrun
    rw [if_pos hfailed] at hbreaks
    exact failPrefill_inv _ fun hkept => hsame.unbound (hbreaks (by rw [hkept]; rfl))
  · next hfailed =>
    rw [if_neg hfailed] at hbreaks
    split at hrun
    · next hmain =>
      cases hrun
      rw [hmain] at hbreaks
      exact failPrefill_inv _ fun hkept =>
        (hsame.trans (sync_bindings ..)).unbound (hbreaks (by rw [hkept]; rfl))
    split at hrun
    · cases hrun
      exact slotInv_cleared _
    split at hrun
    · cases hrun
      exact slotInv_cleared _
    · cases hrun

theorem prefill_ok {server : LiveServer} {selected : Selected} {answers : PrefillAnswers}
    {after : Slot} (hrun : prefill server selected answers = .ok after) :
    ∃ slot, SameBindings selected.slot slot ∧ slot.tokens = selected.prompt ∧
      after = keepContinued slot selected.source := by
  unfold prefill at hrun
  simp only at hrun
  generalize hcold : (if server.syncsCold selected = true then
      selected.slot.sync
        (selected.prompt.take (server.coldStoreLen selected.cached selected.prompt)) answers.cold
    else selected.slot) = cold at hrun
  have hsame : SameBindings selected.slot cold := by
    rw [← hcold]
    split
    · exact sync_bindings ..
    · exact ⟨rfl, rfl, rfl⟩
  split at hrun
  · cases hrun
  split at hrun
  · cases hrun
  · next hmain =>
    split at hrun
    · cases hrun
    split at hrun
    · cases hrun
    · cases hrun
      cases hanswer : answers.main with
      | failed left checkpointValid => simp [hanswer, SyncAnswer.isOk] at hmain
      | ok => exact ⟨_, hsame.trans (sync_bindings _ selected.prompt .ok), rfl, rfl⟩

theorem decodeReply_bindings (server : LiveServer) (slot : Slot) (request : LiveRequest)
    (first : DecodeAnswer) (recovery : Option RecoveryAnswer) :
    SameBindings slot (decodeReply server slot request first recovery) := by
  have hfirst := decode_bindings slot first
  unfold decodeReply
  cases recovery with
  | none => exact hfirst
  | some recovery =>
    simp only
    split
    · have hsynced : SameBindings slot (if recovery.suffixText = [] then slot.decode first
          else (slot.decode first).sync
            (server.buildPrompt (slot.decode first).tokens recovery.suffixText) recovery.sync) := by
        split
        · exact hfirst
        · exact hfirst.trans (sync_bindings ..)
      split
      · exact hsynced.trans (decode_bindings ..)
      · exact hsynced
    · exact hfirst

/-- Without tools there is no recovery: decoding puts tokens behind the prompt, or the session is
given up. -/
theorem decodeReply_grows (server : LiveServer) (slot : Slot) {request : LiveRequest}
    (htools : request.hasTools = false) (first : DecodeAnswer)
    (recovery : Option RecoveryAnswer) :
    (decodeReply server slot request first recovery).tokens = [] ∨
      slot.tokens <+: (decodeReply server slot request first recovery).tokens := by
  have hfirst : (slot.decode first).tokens = [] ∨ slot.tokens <+: (slot.decode first).tokens := by
    unfold Slot.decode
    split
    · exact Or.inl rfl
    · exact Or.inr (List.prefix_append _ _)
  unfold decodeReply
  cases recovery with
  | none => exact hfirst
  | some recovery =>
    simp only [htools, Bool.and_false, Bool.false_and, Bool.false_eq_true, if_false]
    exact hfirst

/-! ## Publishing -/

/-- The slot a reply is published on. A binding of another protocol is gone by then, and the
thinking binding can only be behind when tools are in play. -/
structure ReplyReady (request : LiveRequest) (slot : Slot) : Prop where
  responses : request.api ≠ .responses → slot.responses.valid = false
  anthropic : request.api ≠ .anthropic → slot.anthropic.valid = false
  thinking : request.hasTools = false → Attached slot.tokens slot.thinking

theorem commonPrefix_full {slot : Slot} {canonical : List Nat}
    (hvalid : slot.checkpointValid = true)
    (hcommon : slot.commonPrefix canonical = slot.tokens.length) :
    slot.tokens <+: canonical := by
  unfold Slot.commonPrefix at hcommon
  rw [hvalid] at hcommon
  simp only [Bool.not_true, Bool.false_eq_true, if_false] at hcommon
  generalize slot.tokens = tokens at hcommon ⊢
  induction tokens generalizing canonical with
  | nil => exact List.nil_prefix
  | cons token tokens ih =>
    cases canonical with
    | nil => simp at hcommon
    | cons other canonical =>
      rw [List.zip_cons_cons] at hcommon
      by_cases hsame : token = other
      · rw [List.takeWhile_cons_of_pos (by simpa using hsame), List.length_cons,
          List.length_cons] at hcommon
        rw [hsame]
        exact (List.prefix_cons_inj other).mpr (ih (by omega))
      · rw [List.takeWhile_cons_of_neg (by simpa using hsame)] at hcommon
        simp at hcommon

/-- The binding was recorded for the tokens as they stand. -/
def Fresh (slot : Slot) (binding : Binding) : Prop :=
  binding.valid = true → binding.recorded = slot.tokens ∧ binding.liveTokens = slot.tokens.length

theorem Fresh.attached {slot : Slot} {binding : Binding} (h : Fresh slot binding) :
    Attached slot.tokens binding :=
  fun hvalid _ => Or.inl (h hvalid).1.symm

theorem noteCanonical_attached (slot : Slot) :
    Attached slot.noteCanonical.tokens slot.noteCanonical.anthropic :=
  fun _ _ => Or.inr rfl

/-- A piece of a longer list that is as long as its prefix is that prefix. -/
theorem take_of_start {live canonical : List Nat} (hstarts : live <+: canonical) {count : Nat}
    (hlength : (canonical.take count).length = live.length) : canonical.take count = live := by
  have hle := List.prefix_of_prefix_length_le (List.take_prefix count canonical) hstarts
    (Nat.le_of_eq hlength)
  exact hle.eq_of_length hlength

/-- Canonicalization keeps the Anthropic binding attached unless its rebuild fails. -/
theorem canonicalize_anthropic (server : LiveServer) {slot : Slot} (request : LiveRequest)
    {answers : PublishAnswers} (hfresh : Fresh slot slot.anthropic)
    (hrebuild : answers.rebuild.isOk = true) :
    Attached (canonicalizeToolCheckpoint server slot request answers).tokens
      (canonicalizeToolCheckpoint server slot request answers).anthropic := by
  unfold canonicalizeToolCheckpoint
  split
  · exact hfresh.attached
  simp only
  split
  · exact hfresh.attached
  split
  · exact hfresh.attached
  split
  · exact hfresh.attached
  split
  · exact hfresh.attached
  · next hopen =>
    split
    · next hcommon =>
      cases hanswer : answers.rewrite with
      | ok => exact noteCanonical_attached _
      | failed left checkpointValid =>
        -- what is left is a piece of a list that starts with the recorded tokens
        simp only [SyncAnswer.isOk, Bool.false_eq_true, if_false, Slot.sync]
        cases left with
        | none => exact hfresh.attached
        | some count =>
          intro hvalid hlength
          obtain ⟨hrecorded, hcount⟩ := hfresh hvalid
          have hstill : slot.checkpointValid = true := by
            simpa using (not_or.mp (not_or.mp hopen).2).2
          have hstarts := commonPrefix_full hstill hcommon
          exact Or.inl ((take_of_start hstarts (hlength.trans hcount)).trans hrecorded.symm)
    · unfold rebuildCheckpoint
      simp only [hrebuild, if_true]
      exact noteCanonical_attached _

theorem rebuildCheckpoint_frame (server : LiveServer) (slot : Slot) (rendered : List UInt8)
    (canonical : List Nat) (disk : DiskAnswer) (answer : SyncAnswer) :
    (rebuildCheckpoint server slot rendered canonical disk answer).responses = slot.responses ∧
      (rebuildCheckpoint server slot rendered canonical disk answer).anthropic.valid =
        slot.anthropic.valid := by
  unfold rebuildCheckpoint
  cases answer with
  | ok =>
    match disk with
    | .miss => exact ⟨rfl, rfl⟩
    | .missInvalidated => exact ⟨rfl, rfl⟩
    | .hit [] _ => exact ⟨rfl, rfl⟩
    | .hit (_ :: _) _ => exact ⟨rfl, rfl⟩
  | failed left checkpointValid =>
    match disk with
    | .miss => exact ⟨rfl, rfl⟩
    | .missInvalidated => exact ⟨rfl, rfl⟩
    | .hit [] _ => exact ⟨rfl, rfl⟩
    | .hit (_ :: _) _ => exact ⟨rfl, rfl⟩

theorem canonicalize_frame (server : LiveServer) (slot : Slot) (request : LiveRequest)
    (answers : PublishAnswers) :
    (canonicalizeToolCheckpoint server slot request answers).responses = slot.responses ∧
      (canonicalizeToolCheckpoint server slot request answers).anthropic.valid =
        slot.anthropic.valid := by
  unfold canonicalizeToolCheckpoint
  split
  · exact ⟨rfl, rfl⟩
  simp only
  split
  · exact ⟨rfl, rfl⟩
  split
  · exact ⟨rfl, rfl⟩
  split
  · exact ⟨rfl, rfl⟩
  split
  · exact ⟨rfl, rfl⟩
  split
  · cases answers.rewrite with
    | ok => exact ⟨rfl, rfl⟩
    | failed left checkpointValid => exact ⟨rfl, rfl⟩
  · exact rebuildCheckpoint_frame ..

theorem recordTools_spec {slot : Slot} {request : LiveRequest} (answers : PublishAnswers)
    (hready : ReplyReady request slot) :
    (recordTools slot request answers).tokens = slot.tokens ∧
      (recordTools slot request answers).thinking = slot.thinking ∧
      Fresh (recordTools slot request answers) (recordTools slot request answers).responses ∧
      Fresh (recordTools slot request answers) (recordTools slot request answers).anthropic := by
  unfold recordTools
  cases hapi : request.api with
  | openai =>
    rw [if_neg nofun, if_neg nofun]
    refine ⟨rfl, rfl, fun hvalid => ?_, fun hvalid => ?_⟩
    · rw [hready.responses (by simp [hapi])] at hvalid
      cases hvalid
    · rw [hready.anthropic (by simp [hapi])] at hvalid
      cases hvalid
  | anthropic =>
    simp only [reduceCtorEq, if_false, if_true]
    have hresponses : Fresh slot slot.responses := by
      intro hvalid
      rw [hready.responses (by simp [hapi])] at hvalid
      cases hvalid
    split
    · next hcalls =>
      unfold Slot.anthropicLiveRemember
      rw [if_neg hcalls.1]
      exact ⟨rfl, rfl, hresponses, fun _ => ⟨rfl, rfl⟩⟩
    · exact ⟨rfl, rfl, hresponses, nofun⟩
  | responses =>
    simp only [reduceCtorEq, if_false, if_true]
    have hanthropic : Fresh slot slot.anthropic := by
      intro hvalid
      rw [hready.anthropic (by simp [hapi])] at hvalid
      cases hvalid
    split
    · -- the visible text starts with the prompt text, which is not empty
      have hvisible : request.promptText.getD [] ++ answers.visibleSuffix ≠ [] :=
        fun hnil => (request.responses_rendered hapi).2 (List.append_eq_nil_iff.mp hnil).1
      unfold Slot.responsesLiveRemember
      rw [if_neg hvisible]
      exact ⟨rfl, rfl, fun _ => ⟨rfl, rfl⟩, hanthropic⟩
    · exact ⟨rfl, rfl, nofun, hanthropic⟩

theorem rememberThinking_inv {slot : Slot} (hresponses : Fresh slot slot.responses)
    (hanthropic : Fresh slot slot.anthropic) (hthinking : Attached slot.tokens slot.thinking)
    (request : LiveRequest) (content : List UInt8) :
    SlotInv (rememberThinkingCheckpoint slot request content) := by
  unfold rememberThinkingCheckpoint
  split
  · exact ⟨hresponses.attached, hanthropic.attached, hthinking⟩
  · unfold Slot.thinkingLiveRemember
    split
    · exact ⟨hresponses.attached, hanthropic.attached, hthinking⟩
    · exact ⟨hresponses.attached, hanthropic.attached, fun _ _ => Or.inl rfl⟩

theorem recordThinking_inv (server : LiveServer) {slot : Slot} {request : LiveRequest}
    {answers : PublishAnswers} (hresponses : Fresh slot slot.responses)
    (hanthropic : Fresh slot slot.anthropic)
    (hothers : request.api ≠ .responses → slot.responses.valid = false)
    (hthinking : request.hasTools = false → Attached slot.tokens slot.thinking)
    (hrebuild : answers.rebuild.isOk = true) :
    SlotInv (recordThinking server slot request answers) := by
  unfold recordThinking
  split
  · next hcanonicalize =>
    refine ⟨?_, canonicalize_anthropic server request hanthropic hrebuild, attached_cleared _⟩
    refine attached_of_invalid ?_
    rw [(canonicalize_frame server slot request answers).1]
    exact hothers hcanonicalize.2.1
  split
  · exact ⟨hresponses.attached, hanthropic.attached, attached_cleared _⟩
  split
  · next hremember =>
    have htools : request.hasTools = false := by
      simp only [shouldRememberThinking, Bool.and_eq_true, Bool.not_eq_true'] at hremember
      exact hremember.1.1.1.1.2
    exact rememberThinking_inv hresponses hanthropic (hthinking htools) request answers.content
  · exact ⟨hresponses.attached, hanthropic.attached, attached_cleared _⟩

theorem publish_inv (server : LiveServer) {slot : Slot} {request : LiveRequest}
    {answers : PublishAnswers} (hready : ReplyReady request slot)
    (hrebuild : answers.rebuild.isOk = true ∨ answers.responseOk = false) :
    SlotInv (publish server slot request answers) := by
  unfold publish
  split
  · exact slotInv_cleared _
  simp only
  generalize hstart : (if request.chat = true ∧ answers.calls = [] ∧ request.api = .responses then
    { slot with responses := .cleared } else slot) = start
  have hstartReady : ReplyReady request start := by
    rw [← hstart]
    split
    · exact ⟨fun _ => rfl, hready.anthropic, hready.thinking⟩
    · exact hready
  obtain ⟨htokens, hthinking, hresponses, hanthropic⟩ := recordTools_spec answers hstartReady
  split
  · next hok =>
    refine recordThinking_inv server hresponses hanthropic (fun hapi => ?_) (fun htools => ?_)
      (hrebuild.resolve_right (by simp [hok]))
    · unfold recordTools
      rw [if_neg hapi]
      have hgone := hstartReady.responses hapi
      split
      · split
        · unfold Slot.anthropicLiveRemember
          split
          · exact hgone
          · exact hgone
        · exact hgone
      · exact hgone
    · rw [htokens, hthinking]
      exact hstartReady.thinking htools
  · exact slotInv_cleared _

/-! ## Requests -/

/-- The two paths that would leave a binding behind are not taken: a prefill that fails finds the
job cancelled or no binding, a rebuild that fails finds the client gone. -/
structure Orderly (server : LiveServer) (slot : Slot) (job : LiveJob) : Prop where
  prefill : prefillBreaks server slot job = true → slot.Unbound
  rebuild : job.publish.rebuild.isOk = true ∨ job.publish.responseOk = false

theorem serve_sound {server : LiveServer} {slot : Slot} (h : SlotInv slot) {job : LiveJob}
    (horderly : Orderly server slot job) :
    SlotInv (serve server slot job).1 ∧ ∀ event ∈ (serve server slot job).2, event.Sound := by
  have hbreaks := horderly.prefill
  unfold prefillBreaks at hbreaks
  unfold serve
  cases hselect : select server slot job.request job.rewoundValid job.disk with
  | none => exact ⟨h, nofun⟩
  | some selected =>
    rw [hselect] at hbreaks
    simp only at hbreaks ⊢
    have hselected := select_sound h job.request job.rewoundValid job.disk hselect
    have hsame : SameBindings slot selected.slot :=
      ⟨hselected.responses, hselected.anthropic, hselected.thinking⟩
    cases hprefill : prefill server selected job.prefill with
    | error after =>
      exact ⟨prefill_error hprefill fun hbroken => hsame.unbound (hbreaks hbroken),
        hselected.events⟩
    | ok after =>
      refine ⟨publish_inv server ?_ horderly.rebuild, hselected.events⟩
      obtain ⟨synced, hsynced, htokens, rfl⟩ := prefill_ok hprefill
      have hreply := decodeReply_bindings server (keepContinued synced selected.source) job.request
        job.first job.recovery
      refine ⟨fun hapi => ?_, fun hapi => ?_, fun htools => ?_⟩
      · rw [hreply.responses, keepContinued, if_neg fun hsource =>
          hapi (hselected.fromResponses hsource)]
        rfl
      · rw [hreply.anthropic, keepContinued, if_neg fun hsource =>
          hapi (hselected.fromAnthropic hsource)]
        rfl
      · rw [hreply.thinking]
        by_cases hsource : selected.source = .thinkingVisible
        · -- the one binding that may stay as it is while the session grows
          obtain ⟨live, hdescribes, hcount, hstarts⟩ := hselected.fromThinking hsource
          have hthinking : (keepContinued synced selected.source).thinking = slot.thinking := by
            rw [keepContinued, if_pos hsource, hsynced.thinking, hselected.thinking]
          rw [hthinking]
          refine attached_of_grown hdescribes hcount ?_
          rcases decodeReply_grows server (keepContinued synced selected.source) htools job.first
            job.recovery with hgone | hgrown
          · exact Or.inl hgone
          · refine Or.inr (hstarts.trans ?_)
            rw [← htokens]
            exact hgrown
        · rw [keepContinued, if_neg hsource]
          exact attached_cleared _

/-- Every request of the run is orderly on the slot it finds. -/
def OrderlyRun (server : LiveServer) : Slot → List LiveJob → Prop
  | _, [] => True
  | slot, job :: jobs => Orderly server slot job ∧ OrderlyRun server (serve server slot job).1 jobs

theorem serveAll_events {server : LiveServer} (jobs : List LiveJob) :
    ∀ {slot : Slot}, SlotInv slot → OrderlyRun server slot jobs →
      ∀ event ∈ (serveAll server slot jobs).2, event.Sound := by
  induction jobs with
  | nil =>
    intro slot h _ event hevent
    unfold serveAll at hevent
    split at hevent
    · exact storeCurrent_sound h event hevent
    · cases hevent
  | cons job jobs ih =>
    intro slot h horderly event hevent
    obtain ⟨hinv, hevents⟩ := serve_sound h horderly.1
    rcases List.mem_append.mp hevent with hnow | hlater
    · exact hevents event hnow
    · exact ih hinv horderly.2 event hlater

/-- A slot that has served nothing yet. -/
def newSlot : Slot := ⟨[], false, .cleared, .cleared, .cleared⟩

/-- **No request is continued from another conversation.** In every orderly run of a slot, whenever
a request is continued from live state or a checkpoint is stored under a remembered text, the
session holds exactly the tokens that binding was recorded for, or that turn's canonical tokens. -/
theorem serveAll_sound (server : LiveServer) (jobs : List LiveJob)
    (horderly : OrderlyRun server newSlot jobs) :
    ∀ event ∈ (serveAll server newSlot jobs).2, event.Sound :=
  serveAll_events jobs ⟨attached_cleared _, attached_cleared _, attached_cleared _⟩ horderly

/-! ## Two conversations on one slot -/

/-- One token a byte, and no disk cache. -/
def byteServer : LiveServer where
  tokenize := fun text => text.map UInt8.toNat
  render := fun tokens => tokens.map Nat.toUInt8
  ctxSize := 64
  userToken := 1
  assistantToken := 2
  kv := ⟨false, 8, 0, 0, 0⟩
  disableExactDsmlToolReplay := false

/-- A Responses request that replays its visible history. -/
def replayRequest (text : List UInt8) (h : text ≠ []) : LiveRequest where
  api := .responses
  chat := true
  prompt := text.map UInt8.toNat
  promptText := some text
  hasTools := false
  stream := false
  thinkEnabled := false
  promptPreservesReasoning := false
  responsesLiveSuffixText := none
  responsesLiveCallIds := []
  responsesRequiresLiveToolState := false
  anthropicLiveSuffixText := none
  anthropicLiveCallIds := []
  anthropicRequiresLiveToolState := false
  responses_rendered := fun _ => ⟨rfl, h⟩

/-- The reply is one tool call, written `c`. -/
def toolReply : PublishAnswers where
  cancelledBefore := false
  finish := .toolCalls
  calls := ["call-1"]
  rawToolText := true
  visibleSuffix := bytes "c"
  content := []
  checkpointSuffix := []
  thinkingInside := false
  rewrite := .ok
  rebuildDisk := .miss
  rebuild := .ok
  responseOk := true

/-- A request on `text` whose main synchronization gets `main`. -/
def replayJob (text : List UInt8) (h : text ≠ []) (main : SyncAnswer) : LiveJob where
  request := replayRequest text h
  rewoundValid := true
  disk := .miss
  prefill := ⟨.ok, false, main, false, false, true⟩
  first := ⟨[99], false, false⟩
  recovery := none
  publish := toolReply
  calls_chat := nofun

/-- The first turn of a conversation leaves `abc`; its second turn goes on from there. -/
theorem serveAll_sound_two_turns :
    (serveAll byteServer newSlot [replayJob (bytes "ab") (by decide) .ok,
        replayJob (bytes "abcd") (by decide) .ok]).2 =
      [.continued ⟨true, 3, bytes "abc", ["call-1"], [97, 98, 99], none⟩ [97, 98, 99]
        [97, 98, 99, 100]] ∧
      ∀ event ∈ (serveAll byteServer newSlot [replayJob (bytes "ab") (by decide) .ok,
        replayJob (bytes "abcd") (by decide) .ok]).2, event.Sound :=
  ⟨by decide, serveAll_sound byteServer _
    ⟨⟨fun h => absurd h (by decide), Or.inl rfl⟩, ⟨fun h => absurd h (by decide), Or.inl rfl⟩,
      trivial⟩⟩

/-- Between the two turns another client's prompt `wxyz` fails after three tokens. The second turn
is then continued from those. -/
theorem failed_prefill_joins_conversations :
    (serveAll byteServer newSlot [replayJob (bytes "ab") (by decide) .ok,
        replayJob (bytes "wxyz") (by decide) (.failed (some 3) false),
        replayJob (bytes "abcd") (by decide) .ok]).2 =
      [.continued ⟨true, 3, bytes "abc", ["call-1"], [97, 98, 99], none⟩ [119, 120, 121]
        [119, 120, 121, 100]] ∧
      ¬ ∀ event ∈ (serveAll byteServer newSlot [replayJob (bytes "ab") (by decide) .ok,
        replayJob (bytes "wxyz") (by decide) (.failed (some 3) false),
        replayJob (bytes "abcd") (by decide) .ok]).2, event.Sound := by
  have hevents : (serveAll byteServer newSlot [replayJob (bytes "ab") (by decide) .ok,
        replayJob (bytes "wxyz") (by decide) (.failed (some 3) false),
        replayJob (bytes "abcd") (by decide) .ok]).2 =
      [.continued ⟨true, 3, bytes "abc", ["call-1"], [97, 98, 99], none⟩ [119, 120, 121]
        [119, 120, 121, 100]] := by decide
  refine ⟨hevents, fun hall => ?_⟩
  rw [hevents] at hall
  rcases (hall _ List.mem_cons_self).1 with hrecorded | hcanonical
  · revert hrecorded
    decide
  · cases hcanonical

end Spark.Server
