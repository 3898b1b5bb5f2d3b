import Adwarden.Core.SocksCodec

/-! Whole handshakes with a proxy: what the drivers make of the bytes the proxy sends, however
these are cut into pieces. -/
namespace Adwarden.Core

/-- What came of a handshake: the messages written, the outcome (the leftover of a tunnel that
opened, none while bytes are missing), the machine after it and the pieces it never read. -/
structure Exchange where
  written : List Bytes
  outcome : Except ProxyError (Option Bytes)
  machine : Handshake
  unread : List Bytes

namespace Handshake

/-- The drivers' loop: nothing is fed after a message was written, and the next piece after a
read. The fuel bounds the turns. -/
def drive : (fuel : ℕ) → Handshake → (input : Bytes) → (pieces : List Bytes) → Option Exchange
  | 0, _, _, _ => none
  | fuel + 1, h, input, pieces =>
    match h.step input with
    | (.error e, h) => some ⟨[], .error e, h, pieces⟩
    | (.ok (.done leftover), h) => some ⟨[], .ok (some leftover), h, pieces⟩
    | (.ok (.write message), h) =>
      (drive fuel h [] pieces).map fun x => { x with written := message :: x.written }
    | (.ok .read, h) =>
      match pieces with
      | [] => some ⟨[], .ok none, h, []⟩
      | piece :: pieces => drive fuel h piece pieces

/-- Where a stream of bytes leads. -/
inductive Verdict where
  | waiting (h : Handshake)
  | failed (e : ProxyError)
  | opened (bound : Option SocketAddr) (behind : Bytes)

section Outlook

variable (h : Handshake) (command : Socks5Command)

/-- The reply of an HTTP proxy at the front of `t`. -/
def httpReply (t : Bytes) : Verdict :=
  match parseHttpReply t with
  | .error e => .failed e
  | .ok (.done behind) => .opened h.bound behind
  | .ok _ => .waiting { h with machine := .http true, inbuf := t }

/-- The reply to a SOCKS5 request. -/
def socksReply (t : Bytes) : Verdict :=
  match socks5ReplyLen t with
  | .error e => .failed e
  | .ok none => .waiting { h with machine := .socks5 .requested command, inbuf := t }
  | .ok (some n) =>
    if t.getD 0 0 ≠ 0x05 then .failed (.socks5Version (t.getD 0 0))
    else if t.getD 1 0 ≠ 0x00 then .failed (.socks5Reply (t.getD 1 0))
    else .opened (parseSocks5Bound (t.take n)) (t.drop n)

/-- The status of the authentication and what follows it. -/
def socksStatus (t : Bytes) : List Bytes × Verdict :=
  match t with
  | _ :: status :: rest =>
    if status ≠ 0 then ([], .failed (.socks5AuthFailed status))
    else ([socks5Request command h.target], h.socksReply command rest)
  | _ => ([], .waiting { h with machine := .socks5 .authed command, inbuf := t })

/-- The choice of a method and what follows it. -/
def socksMethod (t : Bytes) : List Bytes × Verdict :=
  match t with
  | version :: method :: rest =>
    if version ≠ 0x05 then ([], .failed (.socks5Version version))
    else if method = 0x00 then
      ([socks5Request command h.target], h.socksReply command rest)
    else match method, h.username with
      | 0x02, some user =>
        let after := h.socksStatus command rest
        (socks5Userpass user (h.password.getD []) :: after.1, after.2)
      | _, _ => ([], .failed .socks5NoAcceptableAuth)
  | _ => ([], .waiting { h with machine := .socks5 .greeted command, inbuf := t })

/-- The messages that a handshake writes and where it gets to when `t` is all that it is sent. -/
def outlook (t : Bytes) : List Bytes × Verdict :=
  match h.machine with
  | .http false => ([h.buildHttpConnect], h.httpReply t)
  | .http true => ([], h.httpReply t)
  | .socks5 .start command =>
    let after := h.socksMethod command t
    (socks5Greeting h.username.isSome :: after.1, after.2)
  | .socks5 .greeted command => h.socksMethod command t
  | .socks5 .authed command => h.socksStatus command t
  | .socks5 .requested command => ([], h.socksReply command t)

end Outlook

theorem parseHttpReply_append {b : Bytes} (x : Bytes) :
    (∀ e, parseHttpReply b = .error e → parseHttpReply (b ++ x) = .error e) ∧
      ∀ left, parseHttpReply b = .ok (.done left) →
        parseHttpReply (b ++ x) = .ok (.done (left ++ x)) := by
  unfold parseHttpReply findHeadersEnd
  cases hi : findSubsequence [CR, LF, CR, LF] b with
  | none => simp
  | some i =>
    have hle := findSubsequence_le hi
    have hat := findSubsequence_isPrefix hi
    have hcr : CR ∈ b := by
      apply List.mem_of_mem_drop (i := i)
      exact hat.subset (List.mem_cons_self ..)
    obtain ⟨j, hj⟩ : ∃ j, position CR b = some j := by
      cases hp : position CR b with
      | none => exact absurd hcr (position_eq_none.mp hp)
      | some j => exact ⟨j, rfl⟩
    have hline : (b ++ x).take j = b.take j :=
      List.take_append_of_le_length (position_lt hj).le
    have hdrop : (b ++ x).drop (i + 4) = b.drop (i + 4) ++ x := by
      rw [List.drop_append_of_le_length (by simpa using hle)]
    rw [findSubsequence_append x hi, hj, position_append x hj]
    simp only [Option.map_some, Option.getD_some, hline, hdrop]
    split
    · split
      · simp
      · split_ifs <;> simp
    · simp

theorem parseHttpReply_ne_write (b message : Bytes) : parseHttpReply b ≠ .ok (.write message) := by
  intro h
  unfold parseHttpReply at h
  split at h
  · cases h
  · dsimp only at h
    split at h
    · split at h
      · cases h
      · split_ifs at h
        cases h
    · cases h

theorem outlook_inbuf (h : Handshake) (b t : Bytes) :
    outlook { h with inbuf := b } t = outlook h t := by
  obtain ⟨target, username, password, machine, inbuf, bound⟩ := h
  cases machine with
  | http sent => cases sent <;> rfl
  | socks5 phase command => cases phase <;> rfl

/-- More bytes behind a tunnel that has opened. -/
def Verdict.append (v : Verdict) (x : Bytes) : Verdict :=
  match v with
  | .opened bound behind => .opened bound (behind ++ x)
  | v => v

def Verdict.Waits (v : Verdict) : Prop := ∃ h, v = .waiting h

section Decided

variable {h : Handshake} {command : Socks5Command} {t : Bytes} (x : Bytes)

/-- A verdict that does not wait stands when more bytes arrive. -/
theorem httpReply_append (hd : ¬ (h.httpReply t).Waits) :
    h.httpReply (t ++ x) = (h.httpReply t).append x := by
  unfold httpReply at hd ⊢
  cases hp : parseHttpReply t with
  | error e =>
    rw [(parseHttpReply_append x).1 e hp]
    rfl
  | ok reply =>
    rw [hp] at hd
    cases reply with
    | write message => exact absurd hp (parseHttpReply_ne_write t message)
    | read => exact absurd ⟨_, rfl⟩ hd
    | done behind =>
      rw [(parseHttpReply_append x).2 behind hp]
      rfl

theorem socksReply_append (hd : ¬ (h.socksReply command t).Waits) :
    h.socksReply command (t ++ x) = (h.socksReply command t).append x := by
  unfold socksReply at hd ⊢
  cases hr : socks5ReplyLen t with
  | error e =>
    rw [(socks5ReplyLen_append x).1 e hr]
    rfl
  | ok n =>
    cases n with
    | none =>
      rw [hr] at hd
      exact absurd ⟨_, rfl⟩ hd
    | some n =>
      obtain ⟨hsame, hlo, hhi⟩ := (socks5ReplyLen_append x).2 n hr
      have hget {i : ℕ} (hi : i < 4) : (t ++ x).getD i 0 = t.getD i 0 := by
        rw [List.getD_eq_getElem?_getD, List.getD_eq_getElem?_getD,
          List.getElem?_append_left (by omega)]
      rw [hsame]
      dsimp only
      rw [hget (by decide), hget (by decide), List.take_append_of_le_length hhi,
        List.drop_append_of_le_length hhi]
      split_ifs <;> rfl

theorem socksStatus_append (hd : ¬ (h.socksStatus command t).2.Waits) :
    h.socksStatus command (t ++ x) =
      ((h.socksStatus command t).1, (h.socksStatus command t).2.append x) := by
  match t with
  | [] => exact absurd ⟨_, rfl⟩ hd
  | [_] => exact absurd ⟨_, rfl⟩ hd
  | _ :: status :: rest =>
    simp only [List.cons_append, socksStatus] at hd ⊢
    split_ifs at hd ⊢
    · rfl
    · rw [socksReply_append x hd]

theorem socksMethod_append (hd : ¬ (h.socksMethod command t).2.Waits) :
    h.socksMethod command (t ++ x) =
      ((h.socksMethod command t).1, (h.socksMethod command t).2.append x) := by
  match t with
  | [] => exact absurd ⟨_, rfl⟩ hd
  | [_] => exact absurd ⟨_, rfl⟩ hd
  | version :: method :: rest =>
    simp only [List.cons_append, socksMethod] at hd ⊢
    split_ifs at hd ⊢
    · rfl
    · rw [socksReply_append x hd]
    · split at hd
      · rw [socksStatus_append x hd]
      · rfl

theorem outlook_append (hd : ¬ (h.outlook t).2.Waits) :
    h.outlook (t ++ x) = ((h.outlook t).1, (h.outlook t).2.append x) := by
  unfold outlook at hd ⊢
  split at hd
  · rw [httpReply_append x hd]
  · rw [httpReply_append x hd]
  · rw [socksMethod_append x hd]
  · rw [socksMethod_append x hd]
  · rw [socksStatus_append x hd]
  · rw [socksReply_append x hd]

end Decided

/-- How many messages a machine has yet to write at most. -/
def writesLeft (h : Handshake) : ℕ :=
  match h.machine with
  | .http false => 1
  | .http true => 0
  | .socks5 .start _ => 3
  | .socks5 .greeted _ => 2
  | .socks5 .authed _ => 1
  | .socks5 .requested _ => 0

/-- What a step answers, in terms of where the bytes at hand lead. A message is written whatever
follows them. -/
inductive StepCase (h : Handshake) (b : Bytes) : Except ProxyError Step × Handshake → Prop where
  | error {e h'} (hb : h.outlook b = ([], .failed e)) : StepCase h b (.error e, h')
  | done {leftover h'} (hb : h.outlook b = ([], .opened h'.bound leftover)) :
      StepCase h b (.ok (.done leftover), h')
  | write {message h'} (hx : ∀ x, h.outlook (b ++ x) =
        (message :: (h'.outlook (h'.inbuf ++ x)).1, (h'.outlook (h'.inbuf ++ x)).2))
      (hleft : h'.writesLeft < h.writesLeft) (hlen : h'.inbuf.length ≤ b.length) :
      StepCase h b (.ok (.write message), h')
  | read (hb : h.outlook b = ([], .waiting { h with inbuf := b })) :
      StepCase h b (.ok .read, { h with inbuf := b })

section Steps

variable {h : Handshake}

theorem stepCase_http {b : Bytes} (hm : h.machine = .http true) :
    StepCase h b (parseHttpReply b, { h with inbuf := b }) := by
  have hout : h.outlook b = ([], h.httpReply b) := by
    unfold outlook
    rw [hm]
  cases hp : parseHttpReply b with
  | error e => exact .error (by rw [hout, httpReply, hp])
  | ok reply =>
    cases reply with
    | write message => exact absurd hp (parseHttpReply_ne_write b message)
    | read => exact .read (by rw [hout, httpReply, hp, ← hm])
    | done leftover => exact .done (by rw [hout, httpReply, hp])

theorem stepCase_requested {b : Bytes} {command : Socks5Command}
    (hm : h.machine = .socks5 .requested command) :
    StepCase h b (socks5Step { h with inbuf := b } .requested command) := by
  have hout : h.outlook b = ([], h.socksReply command b) := by
    unfold outlook
    rw [hm]
  unfold socks5Step
  dsimp only
  cases hr : socks5ReplyLen b with
  | error e => exact .error (by rw [hout, socksReply, hr])
  | ok n =>
    cases n with
    | none => exact .read (by rw [hout, socksReply, hr, ← hm])
    | some n =>
      dsimp only
      split_ifs with hversion hrep
      · exact .error (by simp only [hout, socksReply, hr, if_pos hversion])
      · exact .error (by simp only [hout, socksReply, hr, if_neg hversion, if_pos hrep])
      · exact .done (by simp only [hout, socksReply, hr, if_neg hversion, if_neg hrep])

theorem stepCase_authed {b : Bytes} {command : Socks5Command}
    (hm : h.machine = .socks5 .authed command) :
    StepCase h b (socks5Step { h with inbuf := b } .authed command) := by
  have hout (t : Bytes) : h.outlook t = h.socksStatus command t := by
    unfold outlook
    rw [hm]
  unfold socks5Step
  dsimp only
  match b with
  | [] => exact .read (by simp [hout, socksStatus, hm])
  | [_] => exact .read (by simp [hout, socksStatus, hm])
  | _ :: status :: rest =>
    dsimp only
    split_ifs with hstatus
    · exact .error (by simp only [hout, socksStatus, if_pos hstatus])
    · apply StepCase.write
      · intro x
        simp only [hout, List.cons_append, socksStatus, if_neg hstatus]
        rfl
      · simp [writesLeft, hm]
      · simp only [List.length_cons]
        omega

theorem stepCase_greeted {b : Bytes} {command : Socks5Command}
    (hm : h.machine = .socks5 .greeted command) :
    StepCase h b (socks5Step { h with inbuf := b } .greeted command) := by
  have hout (t : Bytes) : h.outlook t = h.socksMethod command t := by
    unfold outlook
    rw [hm]
  obtain ⟨target, username, password, machine, inbuf, bound⟩ := h
  obtain rfl : machine = .socks5 .greeted command := hm
  unfold socks5Step
  dsimp only
  match b with
  | [] => exact .read (by simp [hout, socksMethod])
  | [_] => exact .read (by simp [hout, socksMethod])
  | version :: method :: rest =>
    dsimp only
    split_ifs with hversion hnone
    · exact .error (by simp only [hout, socksMethod, if_pos hversion])
    · apply StepCase.write
      · intro x
        simp only [hout, List.cons_append, socksMethod, if_neg hversion, if_pos hnone]
        rfl
      · simp [writesLeft]
      · simp only [List.length_cons]
        omega
    · split
      · apply StepCase.write
        · intro x
          rw [hout]
          simp only [List.cons_append, socksMethod, if_neg hversion, if_neg hnone]
          rfl
        · simp [writesLeft]
        · simp only [List.length_cons]
          omega
      · next hother =>
        apply StepCase.error
        simp only [hout, socksMethod, if_neg hversion, if_neg hnone]

/-- One step, unless it finds the buffer over its cap. -/
theorem step_case (h : Handshake) (input : Bytes)
    (hcap : (h.inbuf ++ input).length ≤ handshakeBufCap) :
    StepCase h (h.inbuf ++ input) (h.step input) := by
  unfold step
  dsimp only
  rw [if_neg (Nat.not_lt.mpr hcap)]
  cases hm : h.machine with
  | http sent =>
    cases sent with
    | true => simpa only [hm] using stepCase_http (b := h.inbuf ++ input) hm
    | false =>
      dsimp only
      apply StepCase.write
      · intro x
        simp only [outlook, hm]
        rfl
      · simp [writesLeft, hm]
      · exact le_rfl
  | socks5 phase command =>
    dsimp only
    cases phase with
    | start =>
      apply StepCase.write
      · intro x
        simp only [outlook, hm]
        rfl
      · simp [writesLeft, hm]
      · exact le_rfl
    | greeted => simpa only [hm] using stepCase_greeted hm
    | authed => simpa only [hm] using stepCase_authed hm
    | requested => simpa only [hm] using stepCase_requested hm

end Steps

/-- A run shows what the outlook on its stream says. A leftover and the pieces never read are the
bytes behind the reply. -/
def Shows (x : Exchange) : List Bytes × Verdict → Prop
  | (written, .waiting h) =>
    x.written = written ∧ x.outcome = .ok none ∧ x.machine = h ∧ x.unread = []
  | (written, .failed e) => x.written = written ∧ x.outcome = .error e
  | (written, .opened bound behind) => x.written = written ∧ ∃ leftover,
    x.outcome = .ok (some leftover) ∧ x.machine.bound = bound ∧
      leftover ++ x.unread.flatten = behind

theorem Shows.write {x : Exchange} {r : List Bytes × Verdict} (message : Bytes) (hx : Shows x r) :
    Shows { x with written := message :: x.written } (message :: r.1, r.2) := by
  obtain ⟨written, verdict⟩ := r
  cases verdict with
  | waiting h =>
    obtain ⟨hw, hrest⟩ := hx
    exact ⟨congrArg (message :: ·) hw, hrest⟩
  | failed e =>
    obtain ⟨hw, hrest⟩ := hx
    exact ⟨congrArg (message :: ·) hw, hrest⟩
  | opened bound behind =>
    obtain ⟨hw, hrest⟩ := hx
    exact ⟨congrArg (message :: ·) hw, hrest⟩

theorem Shows.written {x : Exchange} {r : List Bytes × Verdict} (hx : Shows x r) :
    x.written = r.1 := by
  obtain ⟨written, verdict⟩ := r
  cases verdict <;> exact hx.1

/-- A tunnel that opened was there to be opened. -/
theorem Shows.of_done {x : Exchange} {r : List Bytes × Verdict} {leftover : Bytes}
    (hx : Shows x r) (hdone : x.outcome = .ok (some leftover)) :
    r.2 = .opened x.machine.bound (leftover ++ x.unread.flatten) := by
  obtain ⟨written, verdict⟩ := r
  cases verdict with
  | waiting h =>
    obtain ⟨-, hout, -⟩ := hx
    rw [hout] at hdone
    cases hdone
  | failed e =>
    obtain ⟨-, hout⟩ := hx
    rw [hout] at hdone
    cases hdone
  | opened bound behind =>
    obtain ⟨-, left, hout, hbound, hbehind⟩ := hx
    rw [hout] at hdone
    obtain rfl := Option.some.inj (Except.ok.inj hdone)
    rw [hbound, hbehind]

theorem Shows.of_opened {x : Exchange} {r : List Bytes × Verdict} {bound : Option SocketAddr}
    {behind : Bytes} (hx : Shows x r) (hr : r.2 = .opened bound behind) : ∃ leftover,
    x.outcome = .ok (some leftover) ∧ leftover ++ x.unread.flatten = behind := by
  obtain ⟨written, verdict⟩ := r
  obtain rfl : verdict = .opened bound behind := hr
  obtain ⟨-, leftover, hout, -, hbehind⟩ := hx
  exact ⟨leftover, hout, hbehind⟩

theorem Shows.of_waiting {x : Exchange} {r : List Bytes × Verdict} {h : Handshake}
    (hx : Shows x r) (hr : r.2 = .waiting h) : x.outcome = .ok none ∧ x.machine = h := by
  obtain ⟨written, verdict⟩ := r
  obtain rfl : verdict = .waiting h := hr
  exact ⟨hx.2.1, hx.2.2.1⟩

theorem step_overflow {h : Handshake} {input : Bytes}
    (hcap : handshakeBufCap < (h.inbuf ++ input).length) :
    h.step input = (.error .headerTooLarge, { h with inbuf := h.inbuf ++ input }) := by
  unfold step
  dsimp only
  rw [if_pos hcap]

/-- The fuel of a run suffices. -/
theorem drive_total {fuel : ℕ} {h : Handshake} {input : Bytes} {pieces : List Bytes}
    (hfuel : pieces.length + h.writesLeft < fuel) : ∃ x, drive fuel h input pieces = some x := by
  induction fuel generalizing h input pieces with
  | zero => exact absurd hfuel (Nat.not_lt_zero _)
  | succ fuel ih =>
    unfold drive
    by_cases hcap : handshakeBufCap < (h.inbuf ++ input).length
    · rw [step_overflow hcap]
      exact ⟨_, rfl⟩
    · have hcase := step_case h input (Nat.not_lt.mp hcap)
      generalize h.step input = result at hcase
      cases hcase with
      | error _ => exact ⟨_, rfl⟩
      | done _ => exact ⟨_, rfl⟩
      | @write message h' _ hleft _ =>
        obtain ⟨x, hx⟩ := @ih h' [] pieces (by omega)
        exact ⟨_, Option.map_eq_some_iff.mpr ⟨x, hx, rfl⟩⟩
      | read _ =>
        cases pieces with
        | nil => exact ⟨_, rfl⟩
        | cons piece pieces =>
          have hleft : ({ h with inbuf := h.inbuf ++ input } : Handshake).writesLeft =
              h.writesLeft := rfl
          exact ih (by rw [hleft]; simp only [List.length_cons] at hfuel; omega)

/-- A run over pieces that together stay within the cap shows the outlook on their bytes. -/
theorem drive_shows {fuel : ℕ} {h : Handshake} {input : Bytes} {pieces : List Bytes}
    (hfuel : pieces.length + h.writesLeft < fuel)
    (hcap : (h.inbuf ++ input).length + pieces.flatten.length ≤ handshakeBufCap) :
    ∃ x, drive fuel h input pieces = some x ∧
      Shows x (h.outlook (h.inbuf ++ input ++ pieces.flatten)) := by
  induction fuel generalizing h input pieces with
  | zero => exact absurd hfuel (Nat.not_lt_zero _)
  | succ fuel ih =>
    have hcase := step_case h input (by omega)
    unfold drive
    generalize h.step input = result at hcase
    cases hcase with
    | error hb =>
      have hall := outlook_append pieces.flatten (h := h) (t := h.inbuf ++ input) (by
        rw [hb]
        rintro ⟨_, hw⟩
        cases hw)
      rw [hb] at hall
      rw [hall]
      exact ⟨_, rfl, rfl, rfl⟩
    | done hb =>
      have hall := outlook_append pieces.flatten (h := h) (t := h.inbuf ++ input) (by
        rw [hb]
        rintro ⟨_, hw⟩
        cases hw)
      rw [hb] at hall
      rw [hall]
      exact ⟨_, rfl, rfl, _, rfl, rfl, rfl⟩
    | @write message h' hx hleft hlen =>
      obtain ⟨x, hrun, hshows⟩ := @ih h' [] pieces (by omega)
        (by rw [List.append_nil]; omega)
      rw [List.append_nil] at hshows
      refine ⟨{ x with written := message :: x.written }, by simp only [hrun, Option.map_some], ?_⟩
      rw [hx]
      exact hshows.write message
    | read hb =>
      cases pieces with
      | nil =>
        rw [List.flatten_nil, List.append_nil, hb]
        exact ⟨_, rfl, rfl, rfl, rfl, rfl⟩
      | cons piece pieces =>
        rw [List.flatten_cons, List.length_append] at hcap
        have hleft : ({ h with inbuf := h.inbuf ++ input } : Handshake).writesLeft =
            h.writesLeft := rfl
        obtain ⟨x, hrun, hshows⟩ := @ih { h with inbuf := h.inbuf ++ input } piece pieces
          (by rw [hleft]; simp only [List.length_cons] at hfuel; omega)
          (by simp only [List.length_append] at hcap ⊢; omega)
        rw [outlook_inbuf] at hshows
        refine ⟨x, hrun, ?_⟩
        rw [List.flatten_cons, ← List.append_assoc]
        exact hshows

theorem socks5Step_bound {h : Handshake} {phase : Socks5Phase} {command : Socks5Command}
    (hopen : ∀ leftover, (h.socks5Step phase command).1 ≠ .ok (.done leftover)) :
    (h.socks5Step phase command).2.bound = h.bound := by
  unfold socks5Step at hopen ⊢
  cases phase with
  | start => rfl
  | greeted =>
    dsimp only
    split
    · split_ifs
      · rfl
      · rfl
      · split <;> rfl
    · rfl
  | authed =>
    dsimp only
    split
    · split_ifs <;> rfl
    · rfl
  | requested =>
    dsimp only at hopen ⊢
    cases hr : socks5ReplyLen h.inbuf with
    | error e => rfl
    | ok n =>
      cases n with
      | none => rfl
      | some n =>
        rw [hr] at hopen
        dsimp only at hopen ⊢
        split_ifs at hopen ⊢ with hversion hrep
        · rfl
        · rfl
        · exact absurd rfl (hopen _)

/-- Only a reply that opens the tunnel binds an address. -/
theorem step_bound {h : Handshake} {input : Bytes}
    (hopen : ∀ leftover, (h.step input).1 ≠ .ok (.done leftover)) :
    (h.step input).2.bound = h.bound := by
  unfold step at hopen ⊢
  dsimp only at hopen ⊢
  split_ifs at hopen ⊢
  · rfl
  · cases hm : h.machine with
    | http sent => cases sent <;> rfl
    | socks5 phase command =>
      rw [hm] at hopen
      exact socks5Step_bound hopen

theorem drive_bound {fuel : ℕ} {h : Handshake} {input : Bytes} {pieces : List Bytes}
    {x : Exchange} (hrun : drive fuel h input pieces = some x)
    (hopen : ∀ leftover, x.outcome ≠ .ok (some leftover)) : x.machine.bound = h.bound := by
  induction fuel generalizing h input pieces x with
  | zero => cases hrun
  | succ fuel ih =>
    unfold drive at hrun
    have hbound := @step_bound h input
    generalize h.step input = result at hrun hbound
    obtain ⟨answer, h'⟩ := result
    cases answer with
    | error e =>
      obtain rfl := Option.some.inj hrun
      exact hbound fun leftover hd => by cases hd
    | ok answer =>
      cases answer with
      | done leftover =>
        obtain rfl := Option.some.inj hrun
        exact absurd rfl (hopen leftover)
      | write message =>
        obtain ⟨x, hx, rfl⟩ := Option.map_eq_some_iff.mp hrun
        exact (ih hx hopen).trans (hbound fun leftover hd => by cases hd)
      | read =>
        have hsame := hbound fun leftover hd => by cases hd
        cases pieces with
        | nil =>
          obtain rfl := Option.some.inj hrun
          exact hsame
        | cons piece pieces => exact (ih hrun hopen).trans hsame

/-- A successful reply to a SOCKS5 request, with the address it is bound to. -/
inductive ReplyForm : Bytes → Option SocketAddr → Prop where
  | v4 (rsv : UInt8) (octets : List.Vector UInt8 4) (port : UInt16) :
      ReplyForm ([0x05, 0x00, rsv, 0x01] ++ octets.toList ++ portBytes port)
        (some ⟨.v4 octets, port⟩)
  | v6 (rsv : UInt8) (octets : List.Vector UInt8 16) (port : UInt16) :
      ReplyForm ([0x05, 0x00, rsv, 0x04] ++ octets.toList ++ portBytes port)
        (some ⟨.v6 octets, port⟩)
  | domain (rsv len : UInt8) (name : Bytes) (port : UInt16) (hlen : name.length = len.toNat) :
      ReplyForm ([0x05, 0x00, rsv, 0x03, len] ++ name ++ portBytes port) none

/-- The messages that the bytes of a SOCKS5 proxy draw out. -/
inductive Dialogue (h : Handshake) (command : Socks5Command) (s : Bytes) : List Bytes → Prop where
  | greeted : Dialogue h command s [socks5Greeting h.username.isSome]
  | requested (hmethod : [0x05, 0x00] <+: s) : Dialogue h command s
      [socks5Greeting h.username.isSome, socks5Request command h.target]
  | authenticating {user : Str} (huser : h.username = some user) (hmethod : [0x05, 0x02] <+: s) :
      Dialogue h command s
        [socks5Greeting h.username.isSome, socks5Userpass user (h.password.getD [])]
  | authenticated {user : Str} {version : UInt8} (huser : h.username = some user)
      (hmethod : [0x05, 0x02, version, 0x00] <+: s) : Dialogue h command s
      [socks5Greeting h.username.isSome, socks5Userpass user (h.password.getD []),
        socks5Request command h.target]

/-- What a whole SOCKS5 handshake over the stream `s` amounts to. -/
structure SocksRun (h : Handshake) (command : Socks5Command) (s : Bytes) (x : Exchange) :
    Prop where
  shows : Shows x (h.outlook s)
  dialogue : Dialogue h command s x.written
  opened : ∀ leftover, x.outcome = .ok (some leftover) → ∃ negotiated reply,
    s = negotiated ++ reply ++ (leftover ++ x.unread.flatten) ∧
      (negotiated = [0x05, 0x00] ∨ ∃ version, negotiated = [0x05, 0x02, version, 0x00]) ∧
      Dialogue h command negotiated x.written ∧ socks5Request command h.target ∈ x.written ∧
      ReplyForm reply x.machine.bound
  unbound : (∀ leftover, x.outcome ≠ .ok (some leftover)) → x.machine.bound = h.bound

theorem replyForm_of_len {t : Bytes} {n : ℕ} (hlen : socks5ReplyLen t = .ok (some n))
    (hversion : t.getD 0 0 = 0x05) (hrep : t.getD 1 0 = 0x00) :
    ReplyForm (t.take n) (parseSocks5Bound (t.take n)) := by
  obtain ⟨hroom, hshape⟩ := socks5ReplyLen_found hlen
  rcases hshape with ⟨hatyp, rfl⟩ | ⟨hatyp, rfl⟩ | ⟨hatyp, len, hname, rfl⟩
  · obtain ⟨version, rep, rsv, atyp, octets, port, ht⟩ := exists_framed hroom
    generalize t.drop (4 + 4 + 2) = rest at ht
    subst ht
    obtain rfl : version = 0x05 := hversion
    obtain rfl : rep = 0x00 := hrep
    obtain rfl : atyp = 0x01 := Option.some.inj hatyp
    rw [framed_take, ← socksAddr_v4, parseSocks5Bound_socksAddr, socksAddr_v4, framed,
      List.append_nil, ← List.append_assoc]
    exact .v4 rsv octets port
  · obtain ⟨version, rep, rsv, atyp, octets, port, ht⟩ := exists_framed hroom
    generalize t.drop (4 + 16 + 2) = rest at ht
    subst ht
    obtain rfl : version = 0x05 := hversion
    obtain rfl : rep = 0x00 := hrep
    obtain rfl : atyp = 0x04 := Option.some.inj hatyp
    rw [framed_take, ← socksAddr_v6, parseSocks5Bound_socksAddr, socksAddr_v6, framed,
      List.append_nil, ← List.append_assoc]
    exact .v6 rsv octets port
  · -- The length byte of a name counts as the first of its octets.
    obtain ⟨version, rep, rsv, atyp, octets, port, ht⟩ := exists_framed hroom
    generalize t.drop (4 + (1 + len.toNat) + 2) = rest at ht
    subst ht
    obtain rfl : version = 0x05 := hversion
    obtain rfl : rep = 0x00 := hrep
    obtain rfl : atyp = 0x03 := Option.some.inj hatyp
    have hlength := octets.toList_length
    have hfirst : (octets.toList ++ (portBytes port ++ rest))[0]? = some len := hname
    rw [framed_take, framed, List.append_nil]
    cases hoctets : octets.toList with
    | nil =>
      rw [hoctets, List.length_nil] at hlength
      omega
    | cons first name =>
      rw [hoctets] at hlength hfirst
      obtain rfl : first = len := Option.some.inj hfirst
      rw [List.length_cons] at hlength
      have hform := ReplyForm.domain rsv first name port (by omega)
      rw [List.append_assoc] at hform
      exact hform

theorem socksReply_opened {h : Handshake} {command : Socks5Command} {t behind : Bytes}
    {bound : Option SocketAddr} (ho : h.socksReply command t = .opened bound behind) :
    ∃ reply, t = reply ++ behind ∧ ReplyForm reply bound := by
  unfold socksReply at ho
  cases hlen : socks5ReplyLen t with
  | error e =>
    rw [hlen] at ho
    cases ho
  | ok n =>
    rw [hlen] at ho
    cases n with
    | none => cases ho
    | some n =>
      dsimp only at ho
      split_ifs at ho with hversion hrep
      obtain ⟨rfl, rfl⟩ := Verdict.opened.inj ho
      push Not at hversion hrep
      exact ⟨t.take n, (List.take_append_drop n t).symm,
        replyForm_of_len hlen hversion hrep⟩

/-- What a SOCKS5 handshake says to a stream, and what has gone before when it opens. -/
structure SocksOutlook (h : Handshake) (command : Socks5Command) (s : Bytes)
    (r : List Bytes × Verdict) : Prop where
  dialogue : Dialogue h command s r.1
  opened : ∀ bound behind, r.2 = .opened bound behind → ∃ negotiated reply,
    s = negotiated ++ reply ++ behind ∧
      (negotiated = [0x05, 0x00] ∨ ∃ version, negotiated = [0x05, 0x02, version, 0x00]) ∧
      Dialogue h command negotiated r.1 ∧ socks5Request command h.target ∈ r.1 ∧
      ReplyForm reply bound

theorem socksOutlook_start (h : Handshake) (command : Socks5Command) (s : Bytes) :
    SocksOutlook h command s
      (socks5Greeting h.username.isSome :: (h.socksMethod command s).1,
        (h.socksMethod command s).2) := by
  match s with
  | [] => exact ⟨.greeted, fun _ _ ho => by cases ho⟩
  | [_] => exact ⟨.greeted, fun _ _ ho => by cases ho⟩
  | version :: method :: rest =>
    unfold socksMethod
    dsimp only
    split_ifs with hversion hnone
    · exact ⟨.greeted, fun _ _ ho => by cases ho⟩
    · obtain rfl : version = 0x05 := by simpa using hversion
      subst hnone
      refine ⟨.requested ⟨rest, rfl⟩, ?_⟩
      intro bound behind ho
      obtain ⟨reply, rfl, hreply⟩ := socksReply_opened ho
      exact ⟨[0x05, 0x00], reply, rfl, .inl rfl, .requested List.prefix_rfl, by simp, hreply⟩
    · obtain rfl : version = 0x05 := by simpa using hversion
      split
      · next user huser =>
        match rest with
        | [] => exact ⟨.authenticating huser ⟨[], rfl⟩, fun _ _ ho => by cases ho⟩
        | [b] => exact ⟨.authenticating huser ⟨[b], rfl⟩, fun _ _ ho => by cases ho⟩
        | v :: status :: rest =>
          unfold socksStatus
          dsimp only
          split_ifs with hstatus
          · exact ⟨.authenticating huser ⟨v :: status :: rest, rfl⟩, fun _ _ ho => by cases ho⟩
          · obtain rfl : status = 0 := by simpa using hstatus
            refine ⟨.authenticated huser ⟨rest, rfl⟩, ?_⟩
            intro bound behind ho
            obtain ⟨reply, rfl, hreply⟩ := socksReply_opened ho
            exact ⟨[0x05, 0x02, v, 0x00], reply, rfl, .inr ⟨v, rfl⟩,
              .authenticated huser List.prefix_rfl, by simp, hreply⟩
      · exact ⟨.greeted, fun _ _ ho => by cases ho⟩

/-- A SOCKS5 handshake over a stream within the cap: the messages and the outcome are those of the
stream however it is cut, and the tunnel opens only behind a negotiation and a good reply. -/
theorem socks5_handshake_exact {h : Handshake} {command : Socks5Command}
    (hstart : h.machine = .socks5 .start command) (hempty : h.inbuf = []) (first : Bytes)
    (pieces : List Bytes) (hcap : (first ++ pieces.flatten).length ≤ handshakeBufCap) :
    ∃ x, drive (pieces.length + 4) h first pieces = some x ∧
      SocksRun h command (first ++ pieces.flatten) x := by
  have hleft : h.writesLeft = 3 := by
    unfold writesLeft
    rw [hstart]
  obtain ⟨x, hrun, hshows⟩ := @drive_shows (pieces.length + 4) h first
    pieces (by omega) (by simpa [hempty] using hcap)
  rw [hempty, List.nil_append] at hshows
  refine ⟨x, hrun, ?_⟩
  have hout : SocksOutlook h command (first ++ pieces.flatten)
      (h.outlook (first ++ pieces.flatten)) := by
    unfold outlook
    rw [hstart]
    exact socksOutlook_start h command _
  refine ⟨hshows, ?_, ?_, drive_bound hrun⟩
  · have hwritten := hshows.written
    rw [hwritten]
    exact hout.dialogue
  · intro leftover hdone
    obtain ⟨negotiated, reply, hs, hneg, hdialogue, hrequest, hreply⟩ :=
      hout.opened _ _ (hshows.of_done hdone)
    have hwritten := hshows.written
    rw [← hwritten] at hdialogue hrequest
    exact ⟨negotiated, reply, hs, hneg, hdialogue, hrequest, hreply⟩

def socksProxy : Proxy where
  kind := .socks5
  addr := ⟨.ofOctets 10 0 0 1, 1080⟩
  serverName := []
  username := none
  password := none

/-- The replies of a proxy without authentication, and one byte of the tunnel. -/
def socksReplies : Bytes := [0x05, 0x00] ++ [0x05, 0x00, 0x00, 0x01, 10, 0, 0, 1, 0, 80] ++ [65]

theorem socks5_handshake_exact_split :
    ∃ x, drive 6 (udpAssociate socksProxy) (socksReplies.take 1)
        [(socksReplies.drop 1).take 4, socksReplies.drop 5] = some x ∧
      SocksRun (udpAssociate socksProxy) .udpAssociate socksReplies x :=
  @socks5_handshake_exact (udpAssociate socksProxy) .udpAssociate rfl rfl
    (socksReplies.take 1) [(socksReplies.drop 1).take 4, socksReplies.drop 5]
    (by decide +kernel)

/-- One stream, cut in two ways: the byte behind the reply is in the leftover only when it comes
with the reply. -/
theorem leftover_depends_on_split :
    (drive 6 (udpAssociate socksProxy) [] [socksReplies]).map Exchange.outcome =
        some (.ok (some [65])) ∧
      (drive 6 (udpAssociate socksProxy) [] [socksReplies.take 12, [65]]).map Exchange.outcome =
        some (.ok (some [])) ∧
      [socksReplies.take 12, [65]].flatten = socksReplies :=
  ⟨rfl, rfl, rfl⟩

end Handshake

end Adwarden.Core
