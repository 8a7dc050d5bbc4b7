import PkgManager.HelperSession

namespace PkgManager.HelperMatching

open InstallIpc InstallHelper HelperSession

/-! Between two calls that did not fail the socket is empty and the helper waits. -/

/-- A response on its way: what the worker has of it and what is in the socket. -/
inductive Coming (got wire bytes : List UInt8) : Stage → Prop
  | sending {rest : List UInt8} (hrest : rest ≠ []) (h : got ++ (wire ++ rest) = bytes) :
      Coming got wire bytes (.sending rest)
  | sent (h : got ++ wire = bytes) : Coming got wire bytes (.receiving [])
  | done (h : got ++ wire <+: bytes) : Coming got wire bytes .done

/-- A request on its way: what is in the socket and what the worker has still to send. -/
inductive Going (q : Request) (wire rest : List UInt8) : Stage → Prop
  | receiving {got : List UInt8} (h : got ++ (wire ++ rest) = Request.codec.encode q) :
      Going q wire rest (.receiving got)
  | handling (hwire : wire = []) (hrest : rest = []) : Going q wire rest (.handling q)
  | done : Going q wire rest .done

theorem afterSending_nil (s : Session) :
    afterSending s [] = .receiving [] ∨ afterSending s [] = .done := by
  unfold afterSending
  rw [if_pos rfl]
  by_cases h : s.initialized ≠ 0 ∨ s.helper.terminated = true
  · rw [if_pos h]
    exact .inr rfl
  · rw [if_neg h]
    exact .inl rfl

namespace Coming

variable {got wire bytes : List UInt8} {st : Stage}

theorem stop (h : Coming got wire bytes st) : Coming got wire bytes .done := by
  cases h with
  | sending _ h => exact .done ⟨_, by rw [← h, List.append_assoc]⟩
  | sent h => exact .done (h ▸ List.prefix_rfl)
  | done h => exact .done h

theorem read (h : Coming got wire bytes st) (count : Nat) :
    Coming (got ++ wire.take count) (wire.drop count) bytes st := by
  cases h with
  | sending hrest h =>
    refine .sending hrest ?_
    rw [List.append_assoc, ← List.append_assoc (wire.take count), List.take_append_drop, h]
  | sent h =>
    refine .sent ?_
    rw [List.append_assoc, List.take_append_drop, h]
  | done h =>
    refine .done ?_
    rwa [List.append_assoc, List.take_append_drop]

theorem send {rest : List UInt8} (h : Coming got wire bytes (.sending rest)) (s : Session)
    (count : Nat) : Coming got (wire ++ rest.take count) bytes (afterSending s (rest.drop count)) := by
  cases h with
  | sending _ h =>
    by_cases hrest : rest.drop count = []
    · have hall : rest.take count = rest := by
        have hsplit := List.take_append_drop count rest
        rwa [hrest, List.append_nil] at hsplit
      rw [hrest, hall]
      rcases afterSending_nil s with hs | hs
      · rw [hs]
        exact .sent h
      · rw [hs]
        exact .done (h ▸ List.prefix_rfl)
    · unfold afterSending
      rw [if_neg hrest]
      refine .sending hrest ?_
      rw [List.append_assoc wire, List.take_append_drop, h]

theorem whole (h : Coming got wire bytes st) (hlen : got.length = bytes.length) :
    got = bytes ∧ wire = [] ∧ (st = .receiving [] ∨ st = .done) := by
  cases h with
  | sending hrest h =>
    rw [← h, List.length_append, List.length_append] at hlen
    exact absurd (List.length_eq_zero_iff.mp (by omega)) hrest
  | sent h =>
    have hwire : wire = [] := by
      rw [← h, List.length_append] at hlen
      exact List.length_eq_zero_iff.mp (by omega)
    rw [hwire, List.append_nil] at h
    exact ⟨h, hwire, .inl rfl⟩
  | done h =>
    obtain ⟨more, hmore⟩ := h
    have hwire : wire = [] := by
      rw [← hmore, List.length_append, List.length_append] at hlen
      exact List.length_eq_zero_iff.mp (by omega)
    have hnil : more = [] := by
      rw [← hmore, List.length_append, List.length_append] at hlen
      exact List.length_eq_zero_iff.mp (by omega)
    rw [hwire, hnil, List.append_nil, List.append_nil] at hmore
    exact ⟨hmore, hwire, .inr rfl⟩

end Coming

namespace Going

variable {q : Request} {wire rest : List UInt8} {st : Stage}

theorem stop (_ : Going q wire rest st) : Going q wire rest .done := .done

theorem send (h : Going q wire rest st) (count : Nat) :
    Going q (wire ++ rest.take count) (rest.drop count) st := by
  cases h with
  | receiving h =>
    refine .receiving ?_
    rw [List.append_assoc wire, List.take_append_drop, h]
  | handling hwire hrest =>
    rw [hwire, hrest]
    exact .handling (List.take_nil) (List.drop_nil)
  | done => exact .done

theorem read {got : List UInt8} (h : Going q wire rest (.receiving got)) (count : Nat) :
    Going q (wire.drop count) rest (afterReceiving (got ++ wire.take count)) := by
  cases h with
  | receiving h =>
    have hbytes : (got ++ wire.take count) ++ (wire.drop count ++ rest) = Request.codec.encode q := by
      rw [List.append_assoc, ← List.append_assoc (wire.take count), List.take_append_drop, h]
    unfold afterReceiving
    by_cases hlen : (got ++ wire.take count).length = Request.codec.size
    · have hsize := Request.codec.length_encode q
      rw [← hbytes, List.length_append, hlen, List.length_append] at hsize
      have hwire : wire.drop count = [] := List.length_eq_zero_iff.mp (by omega)
      have hrest : rest = [] := List.length_eq_zero_iff.mp (by omega)
      rw [hwire, hrest, List.append_nil, List.append_nil] at hbytes
      rw [if_pos hlen, hbytes, Request.codec.decode_encode]
      by_cases hq : q.accepted = true
      · rw [if_pos hq]
        exact .handling hwire hrest
      · rw [if_neg hq]
        exact .done
    · rw [if_neg hlen]
      exact .receiving hbytes

end Going

/-- What the parties and the socket are like in each phase of the worker. -/
inductive Joint (s : Session) : Phase → Prop
  | opening (hsent : s.sent = []) (hserved : s.served = []) (hto : s.toHelper = [])
      (hfrom : s.toParent = []) (hstage : s.stage = .starting ∨ s.stage = .done) :
      Joint s (.receiving none [])
  | opened {r : Response} {got : List UInt8} (hsent : s.sent = []) (hserved : s.served = [])
      (hto : s.toHelper = []) (hready : s.ready = some r)
      (hcoming : Coming got s.toParent (Response.codec.encode r) s.stage) :
      Joint s (.receiving none got)
  | idle {opened : Bool} {result : Int32} (hserved : s.served.length = s.sent.length)
      (hto : s.toHelper = []) (hfrom : s.toParent = [])
      (hstage : s.stage = .receiving [] ∨ s.stage = .done) : Joint s (.returned opened result)
  | asking {q : Request} {rest : List UInt8} {before : List Request} (hrest : rest ≠ [])
      (hsent : s.sent = before ++ [q]) (hserved : s.served.length = before.length)
      (hfrom : s.toParent = []) (hgoing : Going q s.toHelper rest s.stage) : Joint s (.sending q rest)
  | asked {q : Request} {before : List Request} (hsent : s.sent = before ++ [q])
      (hserved : s.served.length = before.length) (hfrom : s.toParent = [])
      (hgoing : Going q s.toHelper [] s.stage) : Joint s (.receiving (some q) [])
  | answered {q : Request} {r : Response} {got : List UInt8} {before : List Request}
      {others : List (Request × Response)} (hsent : s.sent = before ++ [q])
      (hserved : s.served = others ++ [(q, r)]) (hothers : others.length = before.length)
      (hto : s.toHelper = [])
      (hcoming : Coming got s.toParent (Response.codec.encode r) s.stage) :
      Joint s (.receiving (some q) got)
  | lost {opened : Bool} {result : Int32} (husable : s.service.usable = false)
      (hresult : ¬mayExchange opened result) : Joint s (.returned opened result)
  | closed : Joint s .closed

theorem request_pos : 0 < Request.codec.size := by
  rw [Request.codec_size]
  decide

theorem response_pos : 0 < Response.codec.size := by
  rw [Response.codec_size]
  decide

theorem coming_first (r : Response) :
    Coming [] [] (Response.codec.encode r) (.sending (Response.codec.encode r)) := by
  refine .sending (Response.codec.encode_ne_nil response_pos r) ?_
  rw [List.nil_append, List.nil_append]

/-- The helper produced the response when it was ready, or for the very request
of the exchange. -/
def Justified (s : Session) : Option Nat × Response → Prop
  | (none, r) => s.ready = some r
  | (some i, r) => ∃ q, s.sent[i]? = some q ∧ s.served[i]? = some (q, r)

/-- Every response that the worker took is the one to what it was taken for. -/
def Matched (s : Session) : Prop := ∀ a ∈ s.accepted, Justified s a

section Steps

variable {s s' : Session}

theorem joint_starts (h : Joint s s.service.phase) (hstage : s.stage = .starting) (n : Native)
    (bc : Vector UInt8 64) :
    Joint { s with
      initialized := n.result
      stage := .sending (Response.codec.encode (readyResponse s.helper.pid n bc))
      ready := some (readyResponse s.helper.pid n bc) } s.service.phase := by
  generalize s.service.phase = ph at h
  cases h with
  | opening hsent hserved hto hfrom _ =>
    refine .opened hsent hserved hto rfl ?_
    show Coming [] s.toParent _ _
    rw [hfrom]
    exact coming_first _
  | opened _ _ _ _ hcoming =>
    rw [hstage] at hcoming
    cases hcoming
  | idle _ _ _ hidle =>
    rw [hstage] at hidle
    rcases hidle with hidle | hidle <;> cases hidle
  | asking _ _ _ _ hgoing =>
    rw [hstage] at hgoing
    cases hgoing
  | asked _ _ _ hgoing =>
    rw [hstage] at hgoing
    cases hgoing
  | answered _ _ _ _ hcoming =>
    rw [hstage] at hcoming
    cases hcoming
  | lost husable hresult => exact .lost husable hresult
  | closed => exact .closed

theorem joint_handles (h : Joint s s.service.phase) {q : Request} (hstage : s.stage = .handling q)
    (n : Native) :
    Joint { s with
      helper := (handle s.helper q n).helper
      stage := .sending (Response.codec.encode (handle s.helper q n).response)
      served := s.served ++ [(q, (handle s.helper q n).response)] } s.service.phase := by
  generalize s.service.phase = ph at h
  cases h with
  | opening _ _ _ _ hopening =>
    rw [hstage] at hopening
    rcases hopening with hopening | hopening <;> cases hopening
  | opened _ _ _ _ hcoming =>
    rw [hstage] at hcoming
    cases hcoming
  | idle _ _ _ hidle =>
    rw [hstage] at hidle
    rcases hidle with hidle | hidle <;> cases hidle
  | asking hrest _ _ _ hgoing =>
    rw [hstage] at hgoing
    cases hgoing with
    | handling _ hnil => exact absurd hnil hrest
  | asked hsent hserved hfrom hgoing =>
    rw [hstage] at hgoing
    cases hgoing with
    | handling hwire _ =>
      refine .answered hsent rfl hserved hwire ?_
      show Coming [] s.toParent _ _
      rw [hfrom]
      exact coming_first _
  | answered _ _ _ _ hcoming =>
    rw [hstage] at hcoming
    cases hcoming
  | lost husable hresult => exact .lost husable hresult
  | closed => exact .closed

theorem joint_helperTransfers {count : Nat} (h : Joint s s.service.phase)
    (hs : helperTransfers s count = some s') : Joint s' s.service.phase := by
  unfold helperTransfers at hs
  cases hstage : s.stage with
  | starting => simp only [hstage] at hs; cases hs
  | handling q => simp only [hstage] at hs; cases hs
  | done => simp only [hstage] at hs; cases hs
  | sending rest =>
    simp only [hstage] at hs
    by_cases hcount : 0 < count ∧ count ≤ rest.length
    · rw [if_pos hcount] at hs
      obtain rfl := Option.some.inj hs
      generalize s.service.phase = ph at h
      cases h with
      | opening _ _ _ _ hopening =>
        rw [hstage] at hopening
        rcases hopening with hopening | hopening <;> cases hopening
      | opened hsent hserved hto hready hcoming =>
        rw [hstage] at hcoming
        exact .opened hsent hserved hto hready (hcoming.send s count)
      | idle _ _ _ hidle =>
        rw [hstage] at hidle
        rcases hidle with hidle | hidle <;> cases hidle
      | asking _ _ _ _ hgoing =>
        rw [hstage] at hgoing
        cases hgoing
      | asked _ _ _ hgoing =>
        rw [hstage] at hgoing
        cases hgoing
      | answered hsent hserved hothers hto hcoming =>
        rw [hstage] at hcoming
        exact .answered hsent hserved hothers hto (hcoming.send s count)
      | lost husable hresult => exact .lost husable hresult
      | closed => exact .closed
    · rw [if_neg hcount] at hs
      cases hs
  | receiving got =>
    simp only [hstage] at hs
    by_cases hcount : 0 < count ∧ count ≤ s.toHelper.length ∧
        got.length + count ≤ Request.codec.size
    · rw [if_pos hcount] at hs
      obtain rfl := Option.some.inj hs
      have hwire : s.toHelper ≠ [] := fun hnil => by
        rw [hnil, List.length_nil] at hcount
        omega
      generalize s.service.phase = ph at h
      cases h with
      | opening _ _ hto => exact absurd hto hwire
      | opened _ _ hto => exact absurd hto hwire
      | idle _ hto => exact absurd hto hwire
      | asking hrest hsent hserved hfrom hgoing =>
        rw [hstage] at hgoing
        exact .asking hrest hsent hserved hfrom (hgoing.read count)
      | asked hsent hserved hfrom hgoing =>
        rw [hstage] at hgoing
        exact .asked hsent hserved hfrom (hgoing.read count)
      | answered _ _ _ hto => exact absurd hto hwire
      | lost husable hresult => exact .lost husable hresult
      | closed => exact .closed
    · rw [if_neg hcount] at hs
      cases hs

theorem joint_helperStops (h : Joint s s.service.phase) :
    Joint { s with stage := .done } s.service.phase := by
  generalize s.service.phase = ph at h
  cases h with
  | opening hsent hserved hto hfrom _ => exact .opening hsent hserved hto hfrom (.inr rfl)
  | opened hsent hserved hto hready hcoming => exact .opened hsent hserved hto hready hcoming.stop
  | idle hserved hto hfrom _ => exact .idle hserved hto hfrom (.inr rfl)
  | asking hrest hsent hserved hfrom hgoing =>
    exact .asking hrest hsent hserved hfrom hgoing.stop
  | asked hsent hserved hfrom hgoing => exact .asked hsent hserved hfrom hgoing.stop
  | answered hsent hserved hothers hto hcoming =>
    exact .answered hsent hserved hothers hto hcoming.stop
  | lost husable hresult => exact .lost husable hresult
  | closed => exact .closed

theorem joint_returns (v : Service) {opened : Bool} {result : Int32}
    (h : Joint s (.returned opened result)) : Joint s (v.returns opened result) := by
  unfold Service.returns
  by_cases hclosing : v.closing = true
  · rw [if_pos hclosing]
    exact .closed
  · rw [if_neg hclosing]
    exact h

theorem joint_lost (v : Service) {opened : Bool} {error : Int32}
    (herror : error = serviceTimeout ∨ error = serviceDisconnected ∨ error = serviceCanceled) :
    Joint { s with service := v.lost opened error } (v.lost opened error).phase := by
  refine joint_returns v (.lost rfl fun hmay => ?_)
  obtain ⟨htimeout, hdisconnected, hcanceled, -⟩ := hmay
  rcases herror with herror | herror | herror
  · exact htimeout herror
  · exact hdisconnected herror
  · exact hcanceled herror

theorem joint_receiveResponse (q : Option Request) (r : Response)
    (hserved : s.served.length = s.sent.length) (hto : s.toHelper = []) (hfrom : s.toParent = [])
    (hstage : s.stage = .receiving [] ∨ s.stage = .done) :
    Joint (receiveResponse s q r) (receiveResponse s q r).service.phase := by
  unfold receiveResponse
  dsimp only
  by_cases hanswers : r.answers (expected q)
      (if s.service.pid ≤ 0 ∧ expected q = ipcReady then r.pid else s.service.pid) = true
  · rw [if_pos hanswers]
    exact joint_returns _ (.idle hserved hto hfrom hstage)
  · rw [if_neg hanswers]
    exact joint_lost _ (.inr (.inl rfl))

theorem matched_receiveResponse (q : Option Request) (r : Response) (hm : Matched s)
    (hjust : Justified s (q.map fun _ => s.sent.length - 1, r)) :
    Matched (receiveResponse s q r) := by
  unfold receiveResponse
  dsimp only
  by_cases hanswers : r.answers (expected q)
      (if s.service.pid ≤ 0 ∧ expected q = ipcReady then r.pid else s.service.pid) = true
  · rw [if_pos hanswers]
    intro a ha
    rcases List.mem_append.mp ha with ha | ha
    · exact hm a ha
    · obtain rfl := List.mem_singleton.mp ha
      exact hjust
  · rw [if_neg hanswers]
    exact hm

theorem stage_receiveResponse (q : Option Request) (r : Response) :
    (receiveResponse s q r).stage = s.stage := by
  unfold receiveResponse
  dsimp only
  by_cases hanswers : r.answers (expected q)
      (if s.service.pid ≤ 0 ∧ expected q = ipcReady then r.pid else s.service.pid) = true
  · rw [if_pos hanswers]
  · rw [if_neg hanswers]

/-- A response that was read whole is the one that the worker waits for. -/
theorem whole_response {q : Option Request} {got : List UInt8} (h : Joint s (.receiving q got))
    {count : Nat} (hcount : 0 < count ∧ count ≤ s.toParent.length)
    (hlen : (got ++ s.toParent.take count).length = Response.codec.size) :
    s.served.length = s.sent.length ∧ s.toHelper = [] ∧ s.toParent.drop count = [] ∧
      (s.stage = .receiving [] ∨ s.stage = .done) ∧
      Justified s (q.map fun _ => s.sent.length - 1,
        Response.codec.decode (got ++ s.toParent.take count)) := by
  have hwire : s.toParent ≠ [] := fun hnil => by
    rw [hnil, List.length_nil] at hcount
    omega
  cases h with
  | opening _ _ _ hfrom => exact absurd hfrom hwire
  | asked _ _ hfrom => exact absurd hfrom hwire
  | @opened r _ hsent hserved hto hready hcoming =>
    obtain ⟨hgot, hrest, hstage⟩ :=
      (hcoming.read count).whole (hlen.trans (Response.codec.length_encode r).symm)
    refine ⟨by rw [hsent, hserved]; rfl, hto, hrest, hstage, ?_⟩
    rw [hgot, Response.codec.decode_encode]
    exact hready
  | @answered q r _ before others hsent hserved hothers hto hcoming =>
    obtain ⟨hgot, hrest, hstage⟩ :=
      (hcoming.read count).whole (hlen.trans (Response.codec.length_encode r).symm)
    refine ⟨by simp [hsent, hserved, hothers], hto, hrest, hstage, ?_⟩
    rw [hgot, Response.codec.decode_encode]
    have hlast : s.sent.length - 1 = before.length := by simp [hsent]
    refine ⟨q, ?_, ?_⟩
    · rw [hlast, hsent, List.getElem?_concat_length]
    · rw [hlast, ← hothers, hserved, List.getElem?_concat_length]

theorem joint_sends {q : Request} {rest : List UInt8} (h : Joint s (.sending q rest)) (v : Service)
    (count : Nat) :
    Joint { s with toHelper := s.toHelper ++ rest.take count, service := v }
      (if rest.drop count = [] then .receiving (some q) [] else .sending q (rest.drop count)) := by
  cases h with
  | asking _ hsent hserved hfrom hgoing =>
    have hmore := hgoing.send count
    by_cases hrest : rest.drop count = []
    · rw [hrest] at hmore
      rw [if_pos hrest]
      exact .asked hsent hserved hfrom hmore
    · rw [if_neg hrest]
      exact .asking hrest hsent hserved hfrom hmore

theorem joint_reads {q : Option Request} {got : List UInt8} (h : Joint s (.receiving q got))
    (v : Service) {count : Nat} (hcount : 0 < count ∧ count ≤ s.toParent.length) :
    Joint { s with toParent := s.toParent.drop count, service := v }
      (.receiving q (got ++ s.toParent.take count)) := by
  have hwire : s.toParent ≠ [] := fun hnil => by
    rw [hnil, List.length_nil] at hcount
    omega
  cases h with
  | opening _ _ _ hfrom => exact absurd hfrom hwire
  | asked _ _ hfrom => exact absurd hfrom hwire
  | opened hsent hserved hto hready hcoming =>
    exact .opened hsent hserved hto hready (hcoming.read count)
  | answered hsent hserved hothers hto hcoming =>
    exact .answered hsent hserved hothers hto (hcoming.read count)

/-- What a step of the worker keeps. -/
structure Kept (s : Session) : Prop where
  joint : Joint s s.service.phase
  matched : Matched s
  /-- The helper is not ready before it has started. -/
  starting : s.stage = .starting → s.ready = none

theorem kept_transfers {count : Nat} (h : Kept s) (hs : transfers s count = some s') : Kept s' := by
  unfold transfers at hs
  have hjoint := h.joint
  cases hphase : s.service.phase with
  | returned opened result => simp only [hphase] at hs; cases hs
  | closed => simp only [hphase] at hs; cases hs
  | sending q rest =>
    rw [hphase] at hjoint
    simp only [hphase] at hs
    by_cases hcount : 0 < count ∧ count ≤ rest.length
    · rw [if_pos hcount] at hs
      obtain rfl := Option.some.inj hs
      exact ⟨joint_sends hjoint _ count, h.matched, h.starting⟩
    · rw [if_neg hcount] at hs
      cases hs
  | receiving q got =>
    rw [hphase] at hjoint
    simp only [hphase] at hs
    by_cases hcount : 0 < count ∧ count ≤ s.toParent.length ∧
        got.length + count ≤ Response.codec.size
    · rw [if_pos hcount] at hs
      have hread : 0 < count ∧ count ≤ s.toParent.length := ⟨hcount.1, hcount.2.1⟩
      by_cases hlen : (got ++ s.toParent.take count).length = Response.codec.size
      · rw [if_pos hlen] at hs
        obtain rfl := Option.some.inj hs
        obtain ⟨hserved, hto, hrest, hstage, hjust⟩ := whole_response hjoint hread hlen
        refine ⟨joint_receiveResponse q _ hserved hto hrest hstage,
          matched_receiveResponse q _ h.matched hjust, fun hstarting => ?_⟩
        rw [stage_receiveResponse] at hstarting
        rcases hstage with hstage | hstage <;> exact absurd (hstage.symm.trans hstarting) nofun
      · rw [if_neg hlen] at hs
        obtain rfl := Option.some.inj hs
        exact ⟨joint_reads hjoint _ hread, h.matched, h.starting⟩
    · rw [if_neg hcount] at hs
      cases hs

theorem getElem?_of_prefix {α : Type} {l l' : List α} (h : l <+: l') {i : Nat} {a : α}
    (ha : l[i]? = some a) : l'[i]? = some a := by
  obtain ⟨hi, rfl⟩ := List.getElem?_eq_some_iff.mp ha
  exact List.prefix_iff_getElem?.mp h i hi

theorem matched_grows (hm : Matched s) (haccepted : s'.accepted = s.accepted)
    (hready : ∀ r, s.ready = some r → s'.ready = some r) (hsent : s.sent <+: s'.sent)
    (hserved : s.served <+: s'.served) : Matched s' := by
  intro a ha
  rw [haccepted] at ha
  have hjust := hm a ha
  obtain ⟨i, r⟩ := a
  cases i with
  | none => exact hready r hjust
  | some i =>
    obtain ⟨q, hq, hr⟩ := hjust
    exact ⟨q, getElem?_of_prefix hsent hq, getElem?_of_prefix hserved hr⟩

theorem joint_begins {opened : Bool} {result : Int32} (h : Joint s (.returned opened result))
    (hgo : s.service.usable = true ∨ mayExchange opened result) (q : Request) (closing : Bool) :
    Joint (beginExchange s q closing) (beginExchange s q closing).service.phase := by
  cases h with
  | lost husable hresult =>
    rcases hgo with hgo | hgo
    · exact absurd (husable.symm.trans hgo) nofun
    · exact absurd hgo hresult
  | idle hserved hto hfrom hstage =>
    refine .asking (Request.codec.encode_ne_nil request_pos _) rfl hserved hfrom ?_
    show Going _ s.toHelper _ s.stage
    rw [hto]
    rcases hstage with hstage | hstage
    · rw [hstage]
      refine .receiving ?_
      rw [List.nil_append, List.nil_append]
    · rw [hstage]
      exact .done

theorem kept_begins {opened : Bool} {result : Int32} (h : Kept s)
    (hphase : s.service.phase = .returned opened result)
    (hgo : s.service.usable = true ∨ mayExchange opened result) (q : Request) (closing : Bool) :
    Kept (beginExchange s q closing) where
  joint := joint_begins (hphase ▸ h.joint) hgo q closing
  matched := matched_grows h.matched rfl (fun _ hr => hr) (List.prefix_append _ _) List.prefix_rfl
  starting := h.starting

theorem kept_stops {error : Int32} (h : Kept s) (hs : stops s error = some s') : Kept s' := by
  unfold stops at hs
  by_cases herror : error = serviceTimeout ∨ error = serviceDisconnected ∨ error = serviceCanceled
  · rw [if_pos herror] at hs
    cases hphase : s.service.phase with
    | sending q rest =>
      simp only [hphase] at hs
      obtain rfl := Option.some.inj hs
      exact ⟨joint_lost s.service herror, h.matched, h.starting⟩
    | receiving q got =>
      simp only [hphase] at hs
      obtain rfl := Option.some.inj hs
      exact ⟨joint_lost s.service herror, h.matched, h.starting⟩
    | returned opened result => simp only [hphase] at hs; cases hs
    | closed => simp only [hphase] at hs; cases hs
  · rw [if_neg herror] at hs
    cases hs

theorem afterSending_ne (s : Session) (rest : List UInt8) : afterSending s rest ≠ .starting := by
  intro h
  unfold afterSending at h
  by_cases hrest : rest = []
  · rw [if_pos hrest] at h
    by_cases hend : s.initialized ≠ 0 ∨ s.helper.terminated = true
    · rw [if_pos hend] at h
      cases h
    · rw [if_neg hend] at h
      cases h
  · rw [if_neg hrest] at h
    cases h

theorem afterReceiving_ne (got : List UInt8) : afterReceiving got ≠ .starting := by
  intro h
  unfold afterReceiving at h
  by_cases hlen : got.length = Request.codec.size
  · rw [if_pos hlen] at h
    by_cases hq : (Request.codec.decode got).accepted = true
    · rw [if_pos hq] at h
      cases h
    · rw [if_neg hq] at h
      cases h
  · rw [if_neg hlen] at h
    cases h

/-- What a transfer of the helper leaves as it was. -/
theorem helperTransfers_frame {count : Nat} (hs : helperTransfers s count = some s') :
    s'.service = s.service ∧ s'.ready = s.ready ∧ s'.sent = s.sent ∧ s'.served = s.served ∧
      s'.accepted = s.accepted ∧ s'.stage ≠ .starting := by
  unfold helperTransfers at hs
  cases hstage : s.stage with
  | starting => simp only [hstage] at hs; cases hs
  | handling q => simp only [hstage] at hs; cases hs
  | done => simp only [hstage] at hs; cases hs
  | sending rest =>
    simp only [hstage] at hs
    by_cases hcount : 0 < count ∧ count ≤ rest.length
    · rw [if_pos hcount] at hs
      obtain rfl := Option.some.inj hs
      exact ⟨rfl, rfl, rfl, rfl, rfl, afterSending_ne s _⟩
    · rw [if_neg hcount] at hs
      cases hs
  | receiving got =>
    simp only [hstage] at hs
    by_cases hcount : 0 < count ∧ count ≤ s.toHelper.length ∧
        got.length + count ≤ Request.codec.size
    · rw [if_pos hcount] at hs
      obtain rfl := Option.some.inj hs
      exact ⟨rfl, rfl, rfl, rfl, rfl, afterReceiving_ne _⟩
    · rw [if_neg hcount] at hs
      cases hs

theorem kept_helperTransfers {count : Nat} (h : Kept s) (hs : helperTransfers s count = some s') :
    Kept s' := by
  obtain ⟨hservice, hready, hsent, hserved, haccepted, hstage⟩ := helperTransfers_frame hs
  refine ⟨?_, ?_, fun hstarting => absurd hstarting hstage⟩
  · rw [hservice]
    exact joint_helperTransfers h.joint hs
  · exact matched_grows h.matched haccepted (fun _ hr => hready.trans hr)
      (hsent ▸ List.prefix_rfl) (hserved ▸ List.prefix_rfl)

theorem kept_step {e : Event} (h : Kept s) (hs : step s e = some s') : Kept s' := by
  cases e with
  | starts n buildCommit =>
    cases hstage : s.stage with
    | starting =>
      simp only [step, hstage] at hs
      obtain rfl := Option.some.inj hs
      refine ⟨joint_starts h.joint hstage n buildCommit, ?_, nofun⟩
      refine matched_grows h.matched rfl (fun r hr => ?_) List.prefix_rfl List.prefix_rfl
      rw [h.starting hstage] at hr
      cases hr
    | sending rest => simp only [step, hstage] at hs; cases hs
    | receiving got => simp only [step, hstage] at hs; cases hs
    | handling q => simp only [step, hstage] at hs; cases hs
    | done => simp only [step, hstage] at hs; cases hs
  | handles n =>
    cases hstage : s.stage with
    | handling q =>
      simp only [step, hstage] at hs
      obtain rfl := Option.some.inj hs
      refine ⟨joint_handles h.joint hstage n, ?_, nofun⟩
      exact matched_grows h.matched rfl (fun _ hr => hr) List.prefix_rfl (List.prefix_append _ _)
    | starting => simp only [step, hstage] at hs; cases hs
    | sending rest => simp only [step, hstage] at hs; cases hs
    | receiving got => simp only [step, hstage] at hs; cases hs
    | done => simp only [step, hstage] at hs; cases hs
  | helperTransfers count => exact kept_helperTransfers h hs
  | helperStops =>
    obtain rfl := Option.some.inj hs
    exact ⟨joint_helperStops h.joint, h.matched, nofun⟩
  | transfers count => exact kept_transfers h hs
  | stops error => exact kept_stops h hs
  | exchanges q =>
    cases hphase : s.service.phase with
    | returned opened result =>
      simp only [step, hphase] at hs
      by_cases hmay : mayExchange opened result
      · rw [if_pos hmay] at hs
        obtain rfl := Option.some.inj hs
        exact kept_begins h hphase (.inr hmay) q false
      · rw [if_neg hmay] at hs
        cases hs
    | sending q' rest => simp only [step, hphase] at hs; cases hs
    | receiving q' got => simp only [step, hphase] at hs; cases hs
    | closed => simp only [step, hphase] at hs; cases hs
  | closes =>
    cases hphase : s.service.phase with
    | returned opened result =>
      simp only [step, hphase] at hs
      obtain rfl := Option.some.inj hs
      by_cases husable : s.service.usable = true
      · rw [if_pos husable]
        exact kept_begins h hphase (.inl husable) closeRequest true
      · rw [if_neg husable]
        exact ⟨.closed, h.matched, h.starting⟩
    | sending q' rest => simp only [step, hphase] at hs; cases hs
    | receiving q' got => simp only [step, hphase] at hs; cases hs
    | closed => simp only [step, hphase] at hs; cases hs

theorem kept_start (pid : Int32) : Kept (.start pid) where
  joint := .opening rfl rfl rfl rfl (.inl rfl)
  matched := fun _ ha => absurd ha List.not_mem_nil
  starting := fun _ => rfl

theorem kept_exec (h : Kept s) (es : List Event) : Kept (exec s es) := by
  induction es generalizing s with
  | nil => exact h
  | cons e es ih =>
    unfold exec
    cases hs : step s e with
    | none => exact ih h
    | some s' => exact ih (kept_step h hs)

end Steps

/-- In every run of a worker and its helper each response that the worker accepts
is the one that the helper made for the request it is matched with. -/
theorem responses_matched (pid : Int32) (es : List Event) : Matched (exec (.start pid) es) :=
  (kept_exec (kept_start pid) es).matched

end PkgManager.HelperMatching
