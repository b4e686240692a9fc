import Mathlib.Tactic
import BeagleCache.Hits

/-! Whose bytes a client gets. Each block that is sent was compared with the request, but for no more bytes than the request's URL has:
which blocks can be sent for it. -/

namespace BeagleCache.Serve

open Hcfs

/-! ## What a pass leaves of the response -/

section Leads

variable {a : Alloc} {o : Outcome} {off : Int} {b : StoredBlock} {p p' : Pass}

@[simp] theorem delResponseTranLazy_URL (r : Response) : (delResponseTranLazy r).URL = r.URL := by
  unfold delResponseTranLazy
  split <;> rfl

@[simp] theorem delResponseTranLazy_pstage (r : Response) : (delResponseTranLazy r).pstage = r.pstage := by
  unfold delResponseTranLazy
  split <;> rfl

@[simp] theorem parse_URL : (p.parse o off).r.URL = p.r.URL := by rw [Pass.parse, doneReading_r]

theorem searchAndConnect_URL (o : Outcome) (r : Response) : (searchAndConnect o r).2.URL = r.URL := by
  unfold searchAndConnect
  split
  · exact delResponseTranLazy_URL r
  · simp only
    split
    · exact delResponseTranLazy_URL r
    · rfl

@[simp] theorem readyForDownload_URL (o : Outcome) (r : Response) : (readyForDownload o r).URL = r.URL := by
  unfold readyForDownload
  simp only
  split
  · exact (delResponseTranLazy_URL _).trans (searchAndConnect_URL o _)
  · exact searchAndConnect_URL o _

/-- What a pass leaves: the URL, and the stage SENDING where the outer loop goes on, which no pass but the last one of a block decides.
With the last one the response is not in the stage COMPATIBILITY, or it is deleted. -/
structure Leads (p p' : Pass) : Prop where
  URL : p'.r.URL = p.r.URL
  sending : p.this2 = false → p'.this2 = true → p'.r.pstage = .sending
  more : p'.thisFlag = true → p'.this2 = p.this2
  last : p'.thisFlag = false → p'.r.pstage ≠ .compatibility ∨ p'.r.lDel = true

theorem first_ne : Stage.first ≠ .compatibility := by decide

theorem sending_ne : Stage.sending ≠ .compatibility := by decide

theorem Leads.congr {q : Pass} (hleads : Leads q p') (hURL : q.r.URL = p.r.URL) (hthis2 : q.this2 = p.this2) : Leads p p' where
  URL := hleads.URL.trans hURL
  sending h := hleads.sending (hthis2.trans h)
  more h := (hleads.more h).trans hthis2
  last := hleads.last

theorem leads_of_end (hURL : p'.r.URL = p.r.URL) (hthis2 : p'.this2 = p.this2) (hlast : p'.r.pstage ≠ .compatibility ∨ p'.r.lDel = true) :
    Leads p p' where
  URL := hURL
  sending h h' := absurd (h.symm.trans (hthis2.symm.trans h')) Bool.false_ne_true
  more _ := hthis2
  last _ := hlast

@[simp] theorem giveUp_pstage (p : Pass) : p.giveUp.r.pstage = p.r.pstage := delResponseTranLazy_pstage _

theorem leads_giveUp (p : Pass) : Leads p p.giveUp :=
  leads_of_end (delResponseTranLazy_URL _) rfl (.inr (delResponseTranLazy_lDel _))

theorem leads_redo (o : Outcome) (p : Pass) : Leads p (p.redo o) :=
  leads_of_end (readyForDownload_URL o p.r) rfl (.inl first_ne)

theorem deliver_leads (removes : Bool) (o : Outcome) (b : StoredBlock) (p : Pass) : Leads p (deliver removes o b p) := by
  have hURL : (sendData o p.r).2.URL = p.r.URL := by
    rcases sendData_same o p.r with h | h <;> rw [h]
    exact delResponseTranLazy_URL p.r
  unfold deliver
  simp only
  split
  · split
    · exact leads_of_end hURL rfl (.inl sending_ne)
    · exact leads_of_end hURL rfl (.inl sending_ne)
  · split
    · split
      · exact (leads_giveUp _).congr hURL rfl
      · exact (leads_giveUp _).congr hURL rfl
    · split
      · exact (leads_giveUp _).congr hURL rfl
      · split
        · exact ⟨hURL, fun _ _ => rfl, fun h => (nomatch h), fun _ => .inl sending_ne⟩
        · exact (leads_giveUp _).congr hURL rfl

theorem startSending_leads (o : Outcome) (b : StoredBlock) (p : Pass) : Leads p (startSending o b p) := by
  unfold startSending
  simp only
  split
  · split
    · exact leads_of_end rfl rfl (.inl sending_ne)
    · exact leads_of_end rfl rfl (.inl sending_ne)
  · split
    · exact (leads_giveUp _).congr rfl rfl
    · split
      · exact leads_of_end (delResponseTranLazy_URL _) rfl (.inr (delResponseTranLazy_lDel _))
      · exact (deliver_leads true o b _).congr rfl rfl

theorem discard_leads (o : Outcome) (off : Int) (p : Pass) : Leads p (discard o off p) := by
  have hredo (q : Pass) (hURL : q.r.URL = p.r.URL) (hthis2 : q.this2 = p.this2) : Leads p { q.redo o with thisFlag := false } :=
    leads_of_end ((leads_redo o q).congr hURL hthis2).URL hthis2 (.inl first_ne)
  unfold discard
  simp only
  split
  · exact hredo _ rfl rfl
  · exact hredo _ rfl rfl

theorem matchPass_leads (hflag : p.thisFlag = true) : Leads p (matchPass o off b p) := by
  unfold matchPass
  simp only
  split
  · split
    · refine leads_of_end ?_ doneReading_this2 (.inr ?_)
      · rw [doneReading_r]
        exact delResponseTranLazy_URL _
      · rw [doneReading_r]
        exact delResponseTranLazy_lDel _
    · refine leads_of_end ?_ doneReading_this2 (.inl first_ne)
      refine (readyForDownload_URL o _).trans ?_
      rw [doneReading_r]
  · exact ⟨rfl, fun h h' => absurd h' (ne_true_of_eq_false h), fun _ => rfl, fun h => absurd (hflag.symm.trans h) (by decide)⟩

theorem compatibilityPass_leads (hpass : compatibilityPass a o off b p = .ok p') : Leads p p' := by
  unfold compatibilityPass at hpass
  simp only at hpass
  split at hpass
  · rw [← Except.ok.inj hpass]
    refine (leads_redo o _).congr ?_ doneReading_this2
    rw [doneReading_r]
    rfl
  · split at hpass
    · cases hpass
    · split at hpass
      · rw [← Except.ok.inj hpass]
        exact (discard_leads o off _).congr parse_URL parse_this2
      · split at hpass
        · rw [← Except.ok.inj hpass]
          exact (discard_leads o off _).congr parse_URL parse_this2
        · split at hpass
          · rw [← Except.ok.inj hpass]
            exact leads_of_end ((delResponseTranLazy_URL _).trans parse_URL) parse_this2 (.inr (delResponseTranLazy_lDel _))
          · split at hpass
            · rw [← Except.ok.inj hpass]
              refine leads_of_end ?_ parse_this2 (.inl first_ne)
              exact (readyForDownload_URL o _).trans parse_URL
            · rw [← Except.ok.inj hpass]
              exact (startSending_leads o b _).congr parse_URL parse_this2

theorem sendingPass_leads (hpass : sendingPass o off b p = .ok p') : Leads p p' := by
  unfold sendingPass at hpass
  simp only at hpass
  split at hpass
  · rw [← Except.ok.inj hpass]
    exact (leads_giveUp _).congr rfl rfl
  · split at hpass
    · cases hpass
    · split at hpass
      · rw [← Except.ok.inj hpass]
        exact (leads_giveUp _).congr (parse_URL (p := { p with matchNum := p.r.matchNum }))
          (parse_this2 (p := { p with matchNum := p.r.matchNum }))
      · rw [← Except.ok.inj hpass]
        exact (deliver_leads false o b _).congr (parse_URL (p := { p with matchNum := p.r.matchNum }))
          (parse_this2 (p := { p with matchNum := p.r.matchNum }))

theorem innerPass_leads (hpass : innerPass a o off b p = .ok p') (hflag : p.thisFlag = true) : Leads p p' := by
  have hsame : Leads p p := ⟨rfl, fun h h' => absurd h' (ne_true_of_eq_false h), fun _ => rfl, fun h => absurd (hflag.symm.trans h)
      (by decide)⟩
  unfold innerPass at hpass
  split at hpass
  · rw [← Except.ok.inj hpass]
    exact leads_of_end (delResponseTranLazy_URL _) rfl (.inr (delResponseTranLazy_lDel _))
  · split at hpass
    · split at hpass
      · rw [← Except.ok.inj hpass]
        exact matchPass_leads hflag
      · exact compatibilityPass_leads hpass
      · exact sendingPass_leads hpass
      · rw [← Except.ok.inj hpass]
        exact hsame
    · rw [← Except.ok.inj hpass]
      exact hsame

theorem Leads.trans {p'' : Pass} (hleads : Leads p p') (hmore : p'.thisFlag = true) (hleads' : Leads p' p'') : Leads p p'' :=
  hleads'.congr hleads.URL (hleads.more hmore)

theorem urlFits_congr {r r' : Response} (hURL : r'.URL = r.URL) : urlFits r' b ↔ urlFits r b := by
  unfold urlFits
  rw [hURL]

theorem innerPass_compared (hpass : innerPass a o off b p = .ok p') (hleads : Leads p p')
    (hbefore : p.r.pstage = .compatibility → urlFits p.r b)
    (hstage : p'.r.pstage = .compatibility) : urlFits p'.r b := by
  rw [urlFits_congr hleads.URL]
  unfold innerPass at hpass
  split at hpass
  · rw [← Except.ok.inj hpass] at hstage
    exact hbefore ((delResponseTranLazy_pstage _).symm.trans hstage)
  split at hpass
  swap
  · rw [← Except.ok.inj hpass] at hstage
    exact hbefore hstage
  split at hpass
  · rename_i hmatching
    rw [← Except.ok.inj hpass] at hstage
    by_contra hother
    have hnone : getBestMatch p.r b = -1 := if_neg fun h => hother h.1
    unfold matchPass at hstage
    simp only [hnone, if_true] at hstage
    split at hstage
    · rw [doneReading_r, giveUp_pstage, hmatching] at hstage
      cases hstage
    · cases hstage
  · exact hbefore ‹_›
  · rename_i hsending
    by_contra hother
    unfold sendingPass at hpass
    simp only [hother, not_false_eq_true, true_or, if_true] at hpass
    rw [← Except.ok.inj hpass, giveUp_pstage, hsending] at hstage
    cases hstage
  · rw [← Except.ok.inj hpass] at hstage
    exact hbefore hstage

end Leads

end BeagleCache.Serve

namespace BeagleCache.Hits

open Hcfs Serve

/-! ## What is sent -/

/-- All pieces that wait, and all bytes of a body that were sent, are of blocks with `P`. -/
structure From (P : StoredBlock → Prop) (t : Transfer) : Prop where
  toSend : ∀ piece ∈ t.toSend, P piece.1
  client : ∀ b byte, .body b byte ∈ t.client → P b

section From

variable {P : StoredBlock → Prop} {c : Client} {rep : Report} {off : Int} {b : StoredBlock} {t : Transfer}

theorem From.congr {t' : Transfer} (hfrom : From P t) (hsend : t'.toSend = t.toSend) (hclient : t'.client = t.client) : From P t' where
  toSend := hsend ▸ hfrom.toSend
  client := hclient ▸ hfrom.client

theorem From.on (hfrom : From P t) (f : Pass → Pass) : From P (t.on f) := hfrom.congr rfl rfl

theorem body_mem_append {sent more : List Sent} (hsent : ∀ b byte, .body b byte ∈ sent → P b) (hmore : ∀ b byte, .body b byte ∈ more → P b)
    (b : StoredBlock) (byte : UInt8) (h : .body b byte ∈ sent ++ more) : P b := by
  rcases List.mem_append.mp h with h | h
  · exact hsent b byte h
  · exact hmore b byte h

theorem body_mem_header (bytes : List UInt8) (b : StoredBlock) (byte : UInt8) : Sent.body b byte ∉ bytes.map .header := by
  rintro h
  obtain ⟨_, _, heq⟩ := List.mem_map.mp h
  cases heq

theorem body_mem_map {bytes : List UInt8} (hb : P b) (b' : StoredBlock) (byte : UInt8)
    (h : Sent.body b' byte ∈ bytes.map (.body b)) : P b' := by
  obtain ⟨_, _, heq⟩ := List.mem_map.mp h
  cases heq
  exact hb

theorem sendPieces_from (write : Nat → Write) (pieces : List Piece) (k : Nat) (hpieces : ∀ piece ∈ pieces, P piece.1) :
    (∀ piece ∈ (sendPieces write pieces k).left, P piece.1) ∧ ∀ b byte, .body b byte ∈ (sendPieces write pieces k).bytes → P b := by
  induction pieces generalizing k with
  | nil => exact ⟨hpieces, fun _ _ h => nomatch h⟩
  | cons piece rest ih =>
      obtain ⟨hpiece, hrest⟩ := List.forall_mem_cons.mp hpieces
      obtain ⟨b, bytes⟩ := piece
      cases bytes with
      | nil => exact ih k hrest
      | cons byte bytes =>
          rw [sendPieces]
          split
          · exact ⟨hpieces, fun _ _ h => nomatch h⟩
          · exact ⟨hpieces, fun _ _ h => nomatch h⟩
          · split
            · exact ⟨List.forall_mem_cons.mpr ⟨hpiece, hrest⟩, body_mem_map hpiece⟩
            · obtain ⟨hleft, hbytes⟩ := ih (k + 1) hrest
              exact ⟨hleft, body_mem_append (body_mem_map hpiece) hbytes⟩

theorem sendData_from (hfrom : From P t) : From P (sendData c t).2 := by
  unfold sendData
  split
  · obtain ⟨hleft, hbytes⟩ := sendPieces_from c.write t.toSend t.writes hfrom.toSend
    exact ⟨hleft, body_mem_append hfrom.client hbytes⟩
  · split
    · exact ⟨fun piece hpiece => hfrom.toSend piece ((List.dropWhile_suffix _).subset hpiece), hfrom.client⟩
    · exact ⟨fun _ h => (nomatch h), hfrom.client⟩

theorem sent_from {bytes : List Sent} (hfrom : From P t) (hbytes : ∀ b byte, .body b byte ∈ bytes → P b) : From P (t.sent bytes) where
  toSend := hfrom.toSend
  client := body_mem_append hfrom.client hbytes

theorem sendHeader_from (hfrom : From P t) : From P (sendHeader c t).2 := by
  have hact : From P (t.act .sendHeader) := hfrom.congr rfl rfl
  have hnone : ∀ b byte, Sent.body b byte ∈ [] → P b := fun _ _ h => nomatch h
  have hheader (bytes : List UInt8) : ∀ b byte, Sent.body b byte ∈ bytes.map .header → P b :=
    fun b byte h => absurd h (body_mem_header bytes b byte)
  unfold sendHeader
  simp only
  split
  · exact hact
  · split
    · exact sent_from hact hnone
    · exact sent_from hact hnone
    · split
      · exact (sent_from hact (hheader _)).congr rfl rfl
      · exact sent_from hact (hheader _)

theorem readyForDownload_from (hfrom : From P t) : From P (readyForDownload rep t) where
  toSend := fun _ h => (nomatch h)
  client := hfrom.client

theorem parseResponse_from (hfrom : From P t) (hb : P b) : From P (parseResponse rep off b t) where
  toSend := by
    rintro piece hpiece
    rcases List.mem_append.mp hpiece with h | h
    · exact hfrom.toSend piece h
    · obtain ⟨_, _, rfl⟩ := List.mem_map.mp h
      exact hb
  client := hfrom.client

theorem deliver_from (removes : Bool) (hfrom : From P t) : From P (deliver removes c rep b t) := (sendData_from hfrom).congr rfl rfl

theorem startSending_from (hfrom : From P t) : From P (startSending c rep b t) := by
  have hheader : From P (sendHeader c (t.on fun p => p.call (.addReadLock p.r.hash p.matchNum))).2 := sendHeader_from (hfrom.on _)
  unfold startSending
  simp only
  split
  · exact hheader.on _
  · split
    · exact (hheader.on _).on _
    · split
      · exact (hheader.on _).on _
      · exact deliver_from true (hheader.on _)

theorem discard_from (hfrom : From P t) : From P (discard rep off t) := by
  unfold discard
  exact (readyForDownload_from ((hfrom.on _).on _)).on _

theorem sendNegReply_from (hfrom : From P t) : From P (sendNegReply t) := by
  have hact : From P (t.act .sendNegReply) := hfrom.congr rfl rfl
  unfold sendNegReply
  simp only
  split
  · exact sent_from hact fun _ _ h => nomatch h
  · exact hact.congr rfl rfl

theorem matchPass_from (hfrom : From P t) : From P (matchPass rep off b t) := by
  unfold matchPass
  simp only
  split
  · split
    · exact (sendNegReply_from (hfrom.on _)).on _
    · exact (readyForDownload_from ((hfrom.on _).on _)).on _
  · exact (hfrom.on _).on _

theorem compatibilityPass_from (a : Alloc) (hfrom : From P t) (hb : ReadableFits b → P b) : From P (compatibilityPass a c rep off b t) := by
  by_cases hrefused : Refused a b
  · rw [compatibilityPass_refused c rep off t hrefused]
    exact readyForDownload_from (hfrom.on _)
  have hparsed : From P (parseResponse rep off b t) :=
    parseResponse_from hfrom (hb (not_not.mp fun hreadable => hrefused (.inl hreadable)))
  by_cases hfull : rep.parsed = buffFull
  · rw [compatibilityPass_full c off t hrefused hfull]
    exact hparsed.congr rfl rfl
  by_cases hbad : Unparsed rep
  · rw [compatibilityPass_unparsed c off t hrefused hfull hbad]
    exact discard_from hparsed
  by_cases hexpired : rep.expiry = -1
  · rw [compatibilityPass_expired c off t hrefused hfull hbad hexpired]
    exact discard_from hparsed
  rw [compatibilityPass_fresh c off t hrefused hfull hbad hexpired]
  split
  · exact hparsed.on _
  · split
    · exact (readyForDownload_from hparsed).on _
    · exact startSending_from hparsed

theorem sendingPass_from (hfrom : From P t) (hb : urlFits t.pass.r b → ReadableFits b → P b) : From P (sendingPass c rep off b t) := by
  unfold sendingPass
  simp only [on_pass]
  split
  · exact (hfrom.on _).on _
  · rename_i hsame
    obtain ⟨hurl, hreadable⟩ := not_or.mp hsame
    have hparsed : From P (parseResponse rep off b (t.on fun p => { p with matchNum := p.r.matchNum })) :=
      parseResponse_from (hfrom.on _) (hb (not_not.mp hurl) (not_not.mp hreadable))
    split
    · exact hfrom.congr rfl rfl
    · split
      · exact hparsed.on _
      · exact deliver_from false hparsed

end From

/-! ## Runs -/

/-- Within the inner loop, a block in the stage COMPATIBILITY was compared. -/
structure Compared (P : StoredBlock → Prop) (url : List UInt8) (b : StoredBlock) (t : Transfer) : Prop where
  sent : From P t
  URL : t.pass.r.URL = url
  compared : t.pass.r.pstage = .compatibility → urlFits t.pass.r b

section Runs

variable {P : StoredBlock → Prop} {url : List UInt8} {v : View} {c : Client} {rep : Report} {off : Int} {b : StoredBlock} {t : Transfer}

theorem urlFits_iff {r : Response} (hlen : r.URL.length ≤ urlSize - 1) : urlFits r b ↔ r.URL <+: b.URL := by
  unfold urlFits
  rw [min_eq_left hlen, List.take_length, List.prefix_iff_eq_take]
  exact eq_comm

theorem innerPass_from (a : Alloc) (c : Client) (rep : Report) (off : Int) (h : Compared P url b t)
    (hb : urlFits t.pass.r b → ReadableFits b → P b) :
    From P (innerPass a c rep off b t) := by
  unfold innerPass
  split
  · exact h.sent.on _
  · split
    · split
      · exact matchPass_from h.sent
      · rename_i hstage
        exact compatibilityPass_from a h.sent (hb (h.compared hstage))
      · exact sendingPass_from h.sent hb
      · exact h.sent
    · exact h.sent

/-- What a pass leaves of the response is what it leaves without the data. -/
theorem innerPass_pass (a : Alloc) (hfault : t.fault = none) (hfault' : (innerPass a c rep off b t).fault = none) :
    ∃ o, Serve.innerPass a o off b t.pass = .ok (innerPass a c rep off b t).pass := by
  have hok {o : Outcome} (hagrees : Agrees (innerPass a c rep off b t) (Serve.innerPass a o off b t.pass)) :
      Serve.innerPass a o off b t.pass = .ok (innerPass a c rep off b t).pass := by
    rcases hagrees with hcrash | hresult
    · exact nomatch hfault'.symm.trans hcrash
    · exact hresult.symm.trans (result_ok hfault')
  rcases innerPass_follows a c rep off b hfault with hall | ⟨-, header, sent, pending, hagrees⟩
  · exact ⟨_, hok (hall 0 0 false)⟩
  · exact ⟨_, hok hagrees⟩

theorem innerLoop_leads (a : Alloc) (c : Client) (rep : Report) (off : Int) (b : StoredBlock) (n : Nat) (hfault : t.fault = none)
    (hflag : t.pass.thisFlag = true)
    (hrun : (innerLoop a c rep off b n t).fault = none) :
    Leads t.pass (innerLoop a c rep off b n t).pass ∧ (innerLoop a c rep off b n t).pass.thisFlag = false := by
  induction n generalizing t with
  | zero => exact nomatch hrun
  | succ n ih =>
      have hleads (hfault' : (innerPass a c rep off b t).fault = none) : Leads t.pass (innerPass a c rep off b t).pass := by
        obtain ⟨o, hok⟩ := innerPass_pass a hfault hfault'
        exact Serve.innerPass_leads hok hflag
      by_cases hlast : (innerPass a c rep off b t).fault ≠ none ∨ (innerPass a c rep off b t).pass.thisFlag = false
      · rw [innerLoop_last hlast] at hrun ⊢
        exact ⟨hleads hrun, hlast.resolve_left fun h => h hrun⟩
      · obtain ⟨hfault', hflag'⟩ := not_or.mp hlast
        replace hfault' := not_not.mp hfault'
        replace hflag' : (innerPass a c rep off b t).pass.thisFlag = true := Bool.not_eq_false _ ▸ hflag'
        rw [innerLoop_more hfault' hflag'] at hrun ⊢
        obtain ⟨hrest, hend⟩ := ih hfault' hflag' hrun
        exact ⟨(hleads hfault').trans hflag' hrest, hend⟩

theorem innerLoop_from (a : Alloc) (c : Client) (rep : Report) (off : Int) (n : Nat) (hfault : t.fault = none)
    (hflag : t.pass.thisFlag = true) (h : Compared P url b t)
    (hb : urlFits t.pass.r b → ReadableFits b → P b) : From P (innerLoop a c rep off b n t) := by
  induction n generalizing t with
  | zero => exact h.sent.congr rfl rfl
  | succ n ih =>
      have hsent := innerPass_from a c rep off h hb
      by_cases hlast : (innerPass a c rep off b t).fault ≠ none ∨ (innerPass a c rep off b t).pass.thisFlag = false
      · rw [innerLoop_last hlast]
        exact hsent
      · obtain ⟨hfault', hflag'⟩ := not_or.mp hlast
        replace hfault' := not_not.mp hfault'
        replace hflag' : (innerPass a c rep off b t).pass.thisFlag = true := Bool.not_eq_false _ ▸ hflag'
        obtain ⟨o, hok⟩ := innerPass_pass a hfault hfault'
        have hleads := Serve.innerPass_leads hok hflag
        have hcompared : Compared P url b (innerPass a c rep off b t) :=
          ⟨hsent, hleads.URL.trans h.URL, Serve.innerPass_compared hok hleads h.compared⟩
        rw [innerLoop_more hfault' hflag']
        exact ih hfault' hflag' hcompared fun hurl => hb ((urlFits_congr hleads.URL).mp hurl)

theorem fetch_from (hfrom : From P t) : From P (fetch v t).2 := by
  unfold fetch
  split
  · split
    · exact hfrom
    · exact hfrom.congr rfl rfl
  · split
    · show From P (if v.inHOC = true then _ else _)
      split
      · exact hfrom.congr rfl rfl
      · exact hfrom
    · exact hfrom.congr rfl rfl

/-- The blocks that a call can find. -/
def Known (v : View) (blocks : List StoredBlock) (b : StoredBlock) : Prop := b ∈ blocks ∨ ∃ off, v.store off = some b

theorem outerLoop_from {blocks : List StoredBlock} (n : Nat) (hfault : t.fault = none) (hsent : From P t) (hURL : t.pass.r.URL = url)
    (hstage : t.pass.r.pstage ≠ .compatibility) (hthis2 : t.pass.this2 = false) (hdob : ∀ b ∈ t.dob, b ∈ blocks)
    (hP : ∀ b, Known v blocks b → ∀ r : Response, r.URL = url → urlFits r b → ReadableFits b → P b) : From P (outerLoop v c n t) := by
  induction n generalizing t with
  | zero => exact hsent.congr rfl rfl
  | succ n ih =>
      rw [outerLoop]
      split
      · exact hsent
      · have hfetch {b : StoredBlock} {t' : Transfer} (h : fetch v t = (some b, t')) : Fetched v t b t' := fetched_of_eq h
        have hfrom := fetch_from (v := v) hsent
        generalize fetch v t = got at hfetch hfrom ⊢
        obtain ⟨found, t₁⟩ := got
        cases found with
        | none => exact hfrom.on _
        | some b =>
            have hfetched := hfetch rfl
            have hknown : Known v blocks b := by
              rcases hfetched.found with ⟨-, hstore, -⟩ | ⟨-, hhead⟩
              · exact .inr ⟨_, hstore⟩
              · exact .inl (hdob b (hhead ▸ List.mem_cons_self))
            have hrest : ∀ b ∈ t₁.dob, b ∈ blocks := by
              rcases hfetched.found with ⟨-, -, hkept⟩ | ⟨-, hhead⟩
              · exact hkept ▸ hdob
              · exact fun b hb => hdob b (hhead ▸ List.mem_cons_of_mem _ hb)
            have hURL₁ : t₁.pass.r.URL = url := by rw [hfetched.r]; exact hURL
            have hfault₁ : t₁.fault = none := by rw [hfetched.same]; exact hfault
            have hcompared : Compared P url b (t₁.on entered) := by
              refine ⟨hfrom.on _, hURL₁, fun h => absurd ?_ hstage⟩
              replace h : t₁.pass.r.pstage = .compatibility := h
              rw [hfetched.r] at h
              exact h
            have hloop := innerLoop_from v.alloc c (v.report (t₁.pass.r.block + 1)) t.pass.r.remOffset
              (n + 1) (t := t₁.on entered) hfault₁ rfl hcompared (hP b hknown _ hURL₁)
            have hleads := innerLoop_leads v.alloc c (v.report (t₁.pass.r.block + 1)) t.pass.r.remOffset b
              (n + 1) (t := t₁.on entered) hfault₁ rfl
            have hloopdob := innerLoop_dob v.alloc c (v.report (t₁.pass.r.block + 1)) t.pass.r.remOffset b (n + 1) (t₁.on entered)
            simp only
            generalize innerLoop v.alloc c (v.report (t₁.pass.r.block + 1)) t.pass.r.remOffset b (n + 1) (t₁.on entered) = t₂
              at hloop hleads hloopdob ⊢
            split
            · rename_i hmore
              have hlead := (hleads hmore.1).1
              have hthis : (entered t₁.pass).this2 = false := hfetched.this2.trans hthis2
              refine ih hmore.1 (hloop.on _) (hlead.URL.trans hURL₁) ?_ rfl ?_
              · show t₂.pass.r.pstage ≠ _
                rw [hlead.sending hthis hmore.2]
                exact sending_ne
              · show ∀ b ∈ t₂.dob, _
                rw [hloopdob]
                exact hrest
            · exact hloop

end Runs

/-- A response that is served: nothing of it was sent yet, and it has no server. -/
def starting (r : Response) (dob : List StoredBlock) : Transfer where
  pass := ⟨r, true, false, 0, []⟩
  dob := dob
  toSend := []
  headSent := 0
  fd := -1
  cacheCheck := true
  client := []
  writes := 0
  acts := []
  fault := none

/-- Whatever a call finds in the store and in what is left of the dirty object, it sends no byte of a body of another URL. A call
does not begin in the stage COMPATIBILITY, as none ends in it. -/
def RightObject (store : Int → Option StoredBlock) (blocks : List StoredBlock) (url : List UInt8) : Prop :=
  ∀ (v : View) (c : Client) (n : Nat) (r : Response) (dob : List StoredBlock), v.store = store → r.URL = url → r.pstage ≠ .compatibility →
    dob <:+ blocks → ∀ b byte, .body b byte ∈ (processFurtherBlocks v c n (starting r dob)).client → b.URL = url

/-- A response to `url` that comes to the block at `off`, or to the next one of a dirty object. -/
def atBlock (url : List UInt8) (cacheType : CacheType) (off : Int) : Response where
  URL := url
  hash := 0
  waproxGet := false
  cacheType := cacheType
  type := .cache
  pstage := .sending
  status := 0
  lDel := false
  map := false
  presReq := true
  sendHead := true
  block := 1
  remOffset := off
  version := 0
  totalLen := 1
  matchNum := 0
  writeHandler := none

/-- A block has one byte of the body. -/
def oneByteReport : Report := ⟨0, 0, 0, 0, 0, false, [[0]]⟩

def oneByte (store : Int → Option StoredBlock) : View where
  store := store
  inHOC := false
  alloc := initHCFS
  report := fun _ => oneByteReport

/-- A client that takes everything. -/
def open8 : Client := ⟨fun _ => [72], fun _ => .takes 8⟩

theorem atBlock_sends {store : Int → Option StoredBlock} {url : List UInt8} {cacheType : CacheType} {off : Int} {dob : List StoredBlock}
    {b : StoredBlock} {t : Transfer} (hfetch : fetch (oneByte store) (starting (atBlock url cacheType off) dob) = (some b, t))
    (hurl : urlFits (atBlock url cacheType off) b) (hreadable : ReadableFits b) :
    .body b 0 ∈ (processFurtherBlocks (oneByte store) open8 1 (starting (atBlock url cacheType off) dob)).client := by
  have hfetched := fetched_of_eq hfetch
  have hr : t.pass.r = { atBlock url cacheType off with remOffset := t.pass.r.remOffset, version := t.pass.r.version } := hfetched.r
  have hsame : t = { starting (atBlock url cacheType off) dob with pass := t.pass, dob := t.dob } := hfetched.same
  -- the only pass of the inner loop
  have hpass : .body b 0 ∈ (innerPass initHCFS open8 oneByteReport off b (t.on entered)).client := by
    have hlDel : (t.on entered).pass.r.lDel = false := by
      show t.pass.r.lDel = false
      rw [hr]
      rfl
    have htype : (t.on entered).pass.r.type = .cache ∨ (t.on entered).pass.r.type = .follow := by
      left
      show t.pass.r.type = _
      rw [hr]
      rfl
    have hstage : (t.on entered).pass.r.pstage = .sending := by
      show t.pass.r.pstage = _
      rw [hr]
      rfl
    have hfits : ¬(¬urlFits t.pass.r b ∨ ¬ReadableFits b) := by
      rintro (h | h)
      · refine h ((urlFits_congr ?_).mpr hurl)
        rw [hr]
      · exact h hreadable
    have hdeliver : innerPass initHCFS open8 oneByteReport off b (t.on entered) =
        deliver false open8 oneByteReport b
          (parseResponse oneByteReport off b ((t.on entered).on fun p => { p with matchNum := p.r.matchNum })) := by
      rw [innerPass_stage _ _ _ _ _ hlDel htype, hstage]
      exact (if_neg hfits).trans ((if_neg (by decide)).trans (if_neg (by decide)))
    rw [hdeliver]
    show _ ∈ (sendData open8 _).2.client
    have hpresReq : (parseResponse oneByteReport off b
        ((t.on entered).on fun p => { p with matchNum := p.r.matchNum })).pass.r.presReq = true := by
      show (Pass.parse _ off { entered t.pass with matchNum := t.pass.r.matchNum }).r.presReq = true
      rw [Pass.parse, doneReading_r]
      show t.pass.r.presReq = true
      rw [hr]
      rfl
    rw [sendData, if_pos hpresReq]
    show _ ∈ t.client ++ (sendPieces open8.write (t.toSend ++ [(b, [0])]) t.writes).bytes
    rw [hsame]
    exact List.mem_singleton_self _
  have hloop : (processFurtherBlocks (oneByte store) open8 1 (starting (atBlock url cacheType off) dob)).client =
      (innerPass initHCFS open8 oneByteReport off b (t.on entered)).client := by
    have hinner : (innerLoop initHCFS open8 oneByteReport off b 1 (t.on entered)).client =
        (innerPass initHCFS open8 oneByteReport off b (t.on entered)).client := by
      rw [innerLoop]
      split <;> rfl
    have hkept : ¬(starting (atBlock url cacheType off) dob).pass.r.lDel = true := Bool.false_ne_true
    rw [← hinner, show processFurtherBlocks (oneByte store) open8 1 (starting (atBlock url cacheType off) dob) =
      outerLoop (oneByte store) open8 1 (starting (atBlock url cacheType off) dob) from rfl, outerLoop, if_neg hkept, hfetch]
    simp only
    split <;> rfl
  rw [hloop]
  exact hpass

/-- The right object is sent from every place exactly if no block that is stored and has a length that fits has a URL that begins
with the requested one and goes on. -/
theorem rightObject_iff (store : Int → Option StoredBlock) (blocks : List StoredBlock) (url : List UInt8)
    (hlen : url.length ≤ urlSize - 1) :
    RightObject store blocks url ↔
      ∀ b, (b ∈ blocks ∨ ∃ off, store off = some b) → ReadableFits b → url <+: b.URL → b.URL = url := by
  constructor
  · rintro hright b (hb | ⟨off, hoff⟩) hreadable hprefix
    · obtain ⟨before, after, rfl⟩ := List.append_of_mem hb
      have hurl : urlFits (atBlock url .dob 0) b := (urlFits_iff hlen).mpr hprefix
      exact hright (oneByte store) open8 1 (atBlock url .dob 0) (b :: after) rfl rfl sending_ne (List.suffix_append ..) b 0
        (atBlock_sends rfl hurl hreadable)
    · have hurl : urlFits (atBlock url .hoc off) b := (urlFits_iff hlen).mpr hprefix
      have hfetch : fetch (oneByte store) (starting (atBlock url .hoc off) []) =
          (some b, (starting (atBlock url .hoc off) []).on fun p => p.call (.getBlock p.r.remOffset)) := fetch_some rfl hoff
      exact hright (oneByte store) open8 1 (atBlock url .hoc off) [] rfl rfl sending_ne (List.nil_suffix) b 0
        (atBlock_sends hfetch hurl hreadable)
  · intro hstored v c n r dob hstore hURL hstage hdob b byte hsent
    have hP (b : StoredBlock) (hknown : Known v blocks b) (r : Response) (hr : r.URL = url) (hurl : urlFits r b)
        (hreadable : ReadableFits b) : b.URL = url := by
      refine hstored b (hstore ▸ hknown) hreadable ?_
      rw [← hr] at hlen ⊢
      exact (urlFits_iff hlen).mp hurl
    have hnothing : From (fun b => b.URL = url) (starting r dob) := ⟨fun _ h => (nomatch h), fun _ _ h => (nomatch h)⟩
    exact (outerLoop_from (v := v) (c := c) n rfl hnothing hURL hstage rfl (fun b hb => hdob.subset hb) hP).client b byte hsent

/-- The block of another page, of the same site as the sample. -/
def otherPage : StoredBlock := { sampleBlock true with URL := sampleURL ++ [98] }

def otherStore (off : Int) : Option StoredBlock := if off = 0 then some otherPage else none

theorem rightObject_sample : RightObject (sampleEnv 0).store [] sampleURL := by
  apply (rightObject_iff (sampleEnv 0).store [] sampleURL (by decide)).mpr
  rintro b (hb | ⟨off, hoff⟩) _ _
  · cases hb
  · unfold sampleEnv at hoff
    simp only at hoff
    split at hoff
    · cases hoff
      rfl
    · split at hoff
      · cases hoff
        rfl
      · cases hoff

/-- The slot of the index leads to a page whose URL goes on after the requested one, and the client gets that page. -/
theorem other_page_served : sampleURL.length ≤ urlSize - 1 ∧ otherPage.URL.length ≤ urlSize - 1 ∧
    ¬RightObject otherStore [] sampleURL ∧
      .body otherPage 0 ∈ (processFurtherBlocks (oneByte otherStore) open8 3 (starting sampleResponse [])).client := by
  have hsent : .body otherPage 0 ∈ (processFurtherBlocks (oneByte otherStore) open8 3 (starting sampleResponse [])).client := by decide
  refine ⟨by decide, by decide, fun hright => ?_, hsent⟩
  exact absurd (hright (oneByte otherStore) open8 3 sampleResponse [] rfl rfl (by decide) List.suffix_rfl otherPage 0 hsent) (by decide)

end BeagleCache.Hits
