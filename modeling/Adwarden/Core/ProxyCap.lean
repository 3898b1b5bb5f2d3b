import Adwarden.Core.ProxyRun

/-! The cap on what a handshake buffers. It is applied to all the bytes at hand, so a good reply is
refused when too much of the tunnel's data arrives with its end. -/
namespace Adwarden.Core.Handshake

/-- A handshake before its first message. -/
inductive Fresh : Handshake → Prop where
  | http {h : Handshake} (hm : h.machine = .http false) (hempty : h.inbuf = []) : Fresh h
  | socks5 {h : Handshake} {command : Socks5Command} (hm : h.machine = .socks5 .start command)
      (hempty : h.inbuf = []) : Fresh h

theorem connect_fresh (proxy : Proxy) (target : SocketAddr) : Fresh (connect proxy target) := by
  cases hk : proxy.kind with
  | http => exact .http (by simp [connect, hk]) rfl
  | https => exact .http (by simp [connect, hk]) rfl
  | socks5 => exact @Fresh.socks5 _ .connect (by simp [connect, hk]) rfl

theorem udpAssociate_fresh (proxy : Proxy) : Fresh (udpAssociate proxy) :=
  @Fresh.socks5 _ .udpAssociate rfl rfl

/-- The bytes delivered before the piece that completes a reply of `n` bytes, that piece, and the
pieces after it. -/
def completing (n : ℕ) : (prior piece : Bytes) → List Bytes → Bytes × Bytes × List Bytes
  | prior, piece, [] => (prior, piece, [])
  | prior, piece, next :: pieces =>
    if n ≤ (prior ++ piece).length then (prior, piece, next :: pieces)
    else completing n (prior ++ piece) next pieces

/-- How much of what was delivered a handshake no longer buffers: the SOCKS replies before the
last one. -/
def taken (h : Handshake) (prior : Bytes) : ℕ :=
  match h.machine with
  | .http _ => 0
  | .socks5 _ _ =>
    if prior.length < 2 then 0
    else if prior[1]? = some 0x02 ∧ 4 ≤ prior.length then 4
    else 2

/-- What is left to do when the bytes so far do not decide. -/
structure Residue (h : Handshake) (t : Bytes) (h' : Handshake) : Prop where
  resumes : ∀ x, (h.outlook (t ++ x)).2 = (h'.outlook (h'.inbuf ++ x)).2
  buffered : h'.inbuf.length = t.length - taken h t

theorem Fresh.residue_nil {h : Handshake} (hf : Fresh h) : Residue h [] h := by
  cases hf with
  | http hm hempty => exact ⟨fun x => by rw [hempty], by simp [hempty]⟩
  | socks5 hm hempty => exact ⟨fun x => by rw [hempty], by simp [hempty]⟩

theorem socksReply_waiting {h h' : Handshake} {command : Socks5Command} {t : Bytes}
    (hw : h.socksReply command t = .waiting h') :
    h' = { h with machine := .socks5 .requested command, inbuf := t } := by
  unfold socksReply at hw
  split at hw
  · cases hw
  · exact (Verdict.waiting.inj hw).symm
  · split_ifs at hw

theorem httpReply_waiting {h h' : Handshake} {t : Bytes} (hw : h.httpReply t = .waiting h') :
    h' = { h with machine := .http true, inbuf := t } := by
  unfold httpReply at hw
  split at hw
  · cases hw
  · cases hw
  · exact (Verdict.waiting.inj hw).symm

theorem socksStatus_waiting {h h' : Handshake} {command : Socks5Command} {t : Bytes}
    (hw : (h.socksStatus command t).2 = .waiting h') :
    (∀ x, (h.socksStatus command (t ++ x)).2 = (h'.outlook (h'.inbuf ++ x)).2) ∧
      h'.inbuf.length = t.length - if 2 ≤ t.length then 2 else 0 := by
  match t with
  | [] =>
    obtain rfl := Verdict.waiting.inj hw
    exact ⟨fun _ => rfl, rfl⟩
  | [b] =>
    obtain rfl := Verdict.waiting.inj hw
    exact ⟨fun _ => rfl, rfl⟩
  | _ :: status :: rest =>
    simp only [socksStatus] at hw
    split_ifs at hw with hstatus
    obtain rfl := socksReply_waiting hw
    refine ⟨?_, by simp⟩
    intro x
    simp only [List.cons_append, socksStatus, if_neg hstatus]
    rfl

theorem socksMethod_waiting {h h' : Handshake} {command : Socks5Command} {t : Bytes}
    (hw : (h.socksMethod command t).2 = .waiting h') :
    (∀ x, (h.socksMethod command (t ++ x)).2 = (h'.outlook (h'.inbuf ++ x)).2) ∧
      h'.inbuf.length = t.length - if t.length < 2 then 0
        else if t[1]? = some 0x02 ∧ 4 ≤ t.length then 4 else 2 := by
  match t with
  | [] =>
    obtain rfl := Verdict.waiting.inj hw
    exact ⟨fun _ => rfl, rfl⟩
  | [b] =>
    obtain rfl := Verdict.waiting.inj hw
    exact ⟨fun _ => rfl, rfl⟩
  | version :: method :: rest =>
    have hmethod : (version :: method :: rest)[1]? = some method := rfl
    have hlong : ¬ (version :: method :: rest).length < 2 := by simp
    rw [hmethod, if_neg hlong]
    simp only [socksMethod] at hw
    split_ifs at hw with hversion hnone
    · obtain rfl := socksReply_waiting hw
      refine ⟨?_, by simp [hnone]⟩
      intro x
      simp only [List.cons_append, socksMethod, if_neg hversion, if_pos hnone]
      rfl
    · split at hw
      · next user huser =>
        obtain ⟨hresume, hbuffered⟩ := socksStatus_waiting hw
        refine ⟨?_, ?_⟩
        · intro x
          rw [← hresume x]
          simp only [List.cons_append, socksMethod, if_neg hversion, if_neg hnone, huser]
        · rw [hbuffered]
          simp only [List.length_cons, true_and]
          split_ifs <;> omega
      · cases hw

theorem Fresh.residue {h h' : Handshake} {t : Bytes} (hf : Fresh h)
    (hw : (h.outlook t).2 = .waiting h') : Residue h t h' := by
  cases hf with
  | http hm hempty =>
    unfold outlook at hw
    rw [hm] at hw
    obtain rfl := httpReply_waiting hw
    refine ⟨?_, by simp [taken, hm]⟩
    intro x
    unfold outlook
    rw [hm]
    rfl
  | @socks5 command hm hempty =>
    have hout (t : Bytes) : (h.outlook t).2 = (h.socksMethod command t).2 := by
      unfold outlook
      rw [hm]
    rw [hout] at hw
    obtain ⟨hresume, hbuffered⟩ := socksMethod_waiting hw
    refine ⟨?_, ?_⟩
    · intro x
      rw [hout]
      exact hresume x
    · rw [hbuffered]
      simp only [taken, hm]

theorem drive_mono {fuel fuel' : ℕ} {h : Handshake} {input : Bytes} {pieces : List Bytes}
    {x : Exchange} (hle : fuel ≤ fuel') (hx : drive fuel h input pieces = some x) :
    drive fuel' h input pieces = some x := by
  induction fuel generalizing fuel' h input pieces x with
  | zero => cases hx
  | succ fuel ih =>
    obtain ⟨fuel', rfl⟩ := Nat.exists_eq_add_of_le' (Nat.zero_lt_of_lt hle)
    have hle := Nat.le_of_succ_le_succ hle
    unfold drive at hx ⊢
    generalize h.step input = result at hx ⊢
    obtain ⟨outcome, h'⟩ := result
    cases outcome with
    | error e => exact hx
    | ok action =>
      cases action with
      | done leftover => exact hx
      | write message =>
        obtain ⟨y, hy, rfl⟩ := Option.map_eq_some_iff.mp hx
        exact Option.map_eq_some_iff.mpr ⟨y, ih hle hy, rfl⟩
      | read =>
        cases pieces with
        | nil => exact hx
        | cons piece pieces => exact ih hle hx

/-- A run that ends waiting goes on with the next piece. -/
theorem drive_resume {fuel fuel' : ℕ} {h : Handshake} {input piece : Bytes}
    {pieces : List Bytes} {x y : Exchange} (hx : drive fuel h input [] = some x)
    (hwait : x.outcome = .ok none) (hy : drive fuel' x.machine piece pieces = some y) :
    drive (fuel + fuel') h input (piece :: pieces) =
      some { y with written := x.written ++ y.written } := by
  induction fuel generalizing h input x with
  | zero => cases hx
  | succ fuel ih =>
    rw [Nat.succ_add]
    unfold drive at hx ⊢
    generalize h.step input = result at hx ⊢
    obtain ⟨outcome, h'⟩ := result
    cases outcome with
    | error e =>
      obtain rfl := Option.some.inj hx
      cases hwait
    | ok action =>
      cases action with
      | done leftover =>
        obtain rfl := Option.some.inj hx
        cases hwait
      | write message =>
        obtain ⟨z, hz, rfl⟩ := Option.map_eq_some_iff.mp hx
        exact Option.map_eq_some_iff.mpr ⟨_, ih hz hwait hy, rfl⟩
      | read =>
        obtain rfl := Option.some.inj hx
        exact drive_mono (Nat.le_add_left _ _) hy

/-- A run that ends otherwise leaves the other pieces alone. -/
theorem drive_behind {fuel : ℕ} {h : Handshake} {input : Bytes} {x : Exchange}
    (hx : drive fuel h input [] = some x) (hend : x.outcome ≠ .ok none) (pieces : List Bytes) :
    x.unread = [] ∧ drive fuel h input pieces = some { x with unread := pieces } := by
  induction fuel generalizing h input x with
  | zero => cases hx
  | succ fuel ih =>
    unfold drive at hx ⊢
    generalize h.step input = result at hx ⊢
    obtain ⟨outcome, h'⟩ := result
    cases outcome with
    | error e =>
      obtain rfl := Option.some.inj hx
      exact ⟨rfl, rfl⟩
    | ok action =>
      cases action with
      | done leftover =>
        obtain rfl := Option.some.inj hx
        exact ⟨rfl, rfl⟩
      | write message =>
        obtain ⟨z, hz, rfl⟩ := Option.map_eq_some_iff.mp hx
        obtain ⟨hunread, hrun⟩ := ih hz hend
        exact ⟨hunread, Option.map_eq_some_iff.mpr ⟨_, hrun, rfl⟩⟩
      | read =>
        obtain rfl := Option.some.inj hx
        exact absurd rfl hend

/-- The tunnel opens, and the leftover is what was delivered behind the reply with its last
piece. -/
def Opens (reply : Bytes) (delivery : Bytes × Bytes × List Bytes) (x : Exchange) : Prop :=
  x.outcome = .ok (some ((delivery.1 ++ delivery.2.1).drop reply.length)) ∧
    x.unread = delivery.2.2

/-- The bytes at hand stay within the cap when the last piece arrives. -/
def Fits (h : Handshake) (delivery : Bytes × Bytes × List Bytes) : Prop :=
  delivery.1.length - taken h delivery.1 + delivery.2.1.length ≤ handshakeBufCap

section Reply

variable {h : Handshake} {reply : Bytes} {bound : Option SocketAddr}
  (hreply : (h.outlook reply).2 = .opened bound [])
include hreply

theorem outlook_behind_reply (x : Bytes) : (h.outlook (reply ++ x)).2 = .opened bound x := by
  have hd : ¬ (h.outlook reply).2.Waits := by
    rw [hreply]
    rintro ⟨_, hw⟩
    cases hw
  rw [outlook_append x hd, hreply]
  rfl

/-- Nothing short of the reply decides. -/
theorem outlook_before_reply {t x : Bytes} (hsplit : t ++ x = reply) (hne : x ≠ []) :
    (h.outlook t).2.Waits := by
  by_contra hd
  have hall := congrArg Prod.snd (outlook_append x hd)
  rw [hsplit, hreply] at hall
  cases hv : (h.outlook t).2 with
  | waiting h' => exact hd ⟨h', hv⟩
  | failed e =>
    rw [hv] at hall
    cases hall
  | opened b behind =>
    rw [hv] at hall
    have hnil := (Verdict.opened.inj hall).2
    exact hne (List.append_eq_nil_iff.mp hnil.symm).2

/-- The piece that completes the reply. -/
theorem drive_completing {fuel : ℕ} {h' : Handshake} {prior piece : Bytes}
    {pieces : List Bytes} (hres : Residue h prior h') (hdone : reply <+: prior ++ piece)
    (hfuel : h'.writesLeft < fuel) :
    ∃ x, drive fuel h' piece pieces = some x ∧
      (Fits h (prior, piece, pieces) → Opens reply (prior, piece, pieces) x) ∧
      (¬ Fits h (prior, piece, pieces) → x.outcome = .error .headerTooLarge) := by
  obtain ⟨extra, hextra⟩ := hdone
  have hsize : Fits h (prior, piece, pieces) ↔
      (h'.inbuf ++ piece).length ≤ handshakeBufCap := by
    rw [Fits, List.length_append, hres.buffered]
  by_cases hfit : Fits h (prior, piece, pieces)
  · obtain ⟨x, hrun, hshows⟩ := @drive_shows fuel h' piece [] (by simpa using hfuel)
      (by simpa using hsize.mp hfit)
    have hverdict : (h'.outlook (h'.inbuf ++ piece ++ [].flatten)).2 = .opened bound extra := by
      rw [List.flatten_nil, List.append_nil, ← hres.resumes, ← hextra]
      exact outlook_behind_reply hreply extra
    obtain ⟨leftover, hout, hleft⟩ := hshows.of_opened hverdict
    obtain ⟨hunread, hrun'⟩ := drive_behind hrun (by rw [hout]; simp) pieces
    rw [hunread, List.flatten_nil, List.append_nil] at hleft
    refine ⟨_, hrun', fun _ => ⟨?_, rfl⟩, fun hno => absurd hfit hno⟩
    rw [← hextra, List.drop_left, ← hleft]
    exact hout
  · obtain ⟨fuel, rfl⟩ : ∃ n, fuel = n + 1 := ⟨fuel - 1, by omega⟩
    have hover := @step_overflow h' piece
      (Nat.not_le.mp fun hle => hfit (hsize.mpr hle))
    refine ⟨_, by rw [drive, hover], fun hyes => absurd hyes hfit, fun _ => rfl⟩

/-- A handshake that has been sent the front of a stream goes on with the rest of it. -/
theorem drive_from (hf : Fresh h) (hsmall : reply.length ≤ handshakeBufCap) {fuel : ℕ}
    {h' : Handshake} {prior piece data : Bytes} {pieces : List Bytes} (hres : Residue h prior h')
    (hstream : prior ++ (piece ++ pieces.flatten) = reply ++ data)
    (hfuel : pieces.length + h'.writesLeft < fuel) :
    ∃ x, drive fuel h' piece pieces = some x ∧
      (Fits h (completing reply.length prior piece pieces) →
        Opens reply (completing reply.length prior piece pieces) x) ∧
      (¬ Fits h (completing reply.length prior piece pieces) →
        x.outcome = .error .headerTooLarge) := by
  induction pieces generalizing fuel h' prior piece with
  | nil =>
    rw [completing]
    refine drive_completing hreply hres ⟨data, ?_⟩ (by simpa using hfuel)
    simpa using hstream.symm
  | cons next pieces ih =>
    have hassoc : prior ++ piece ++ (next ++ pieces.flatten) = reply ++ data := by
      rw [List.append_assoc]
      exact hstream
    rw [completing]
    split_ifs with hlen
    · refine drive_completing hreply hres ?_ (by simp only [List.length_cons] at hfuel; omega)
      exact List.prefix_of_prefix_length_le ⟨data, hassoc.symm⟩ ⟨_, rfl⟩ hlen
    · -- Short of the reply the run waits, and the residue carries it on.
      obtain ⟨rest, hrest⟩ : prior ++ piece <+: reply :=
        List.prefix_of_prefix_length_le ⟨_, hassoc⟩ ⟨data, rfl⟩ (by omega)
      have hne : rest ≠ [] := by
        rintro rfl
        rw [List.append_nil] at hrest
        exact hlen (by rw [hrest])
      obtain ⟨h'', hwaits⟩ := outlook_before_reply hreply hrest hne
      have hcap : (h'.inbuf ++ piece).length ≤ handshakeBufCap := by
        rw [List.length_append] at hlen ⊢
        rw [hres.buffered]
        omega
      obtain ⟨x, hrun, hshows⟩ := @drive_shows (h'.writesLeft + 1) h' piece [] (by simp)
        (by simpa using hcap)
      have hverdict : (h'.outlook (h'.inbuf ++ piece ++ [].flatten)).2 = .waiting h'' := by
        rw [List.flatten_nil, List.append_nil, ← hres.resumes, hwaits]
      obtain ⟨hwait, rfl⟩ := hshows.of_waiting hverdict
      obtain ⟨y, hy, hyes, hno⟩ := ih (hf.residue hwaits) hassoc (Nat.lt_succ_self _)
      have hlong := drive_resume hrun hwait hy
      obtain ⟨z, hz⟩ := @drive_total fuel h' piece (next :: pieces) hfuel
      have hsame := (drive_mono (Nat.le_max_left fuel _) hz).symm.trans
        (drive_mono (Nat.le_max_right fuel _) hlong)
      obtain rfl := Option.some.inj hsame
      exact ⟨_, hz, hyes, hno⟩

/-- A handshake whose proxy sends a good reply within the cap opens, with the data that came with
the reply, unless the piece that completes the reply takes the buffer over the cap. -/
theorem handshake_cap (hf : Fresh h) (hsmall : reply.length ≤ handshakeBufCap)
    {first data : Bytes} {pieces : List Bytes}
    (hstream : first ++ pieces.flatten = reply ++ data) :
    ∃ x, drive (pieces.length + 4) h first pieces = some x ∧
      (Opens reply (completing reply.length [] first pieces) x ↔
        Fits h (completing reply.length [] first pieces)) ∧
      (x.outcome = .error .headerTooLarge ↔
        ¬ Fits h (completing reply.length [] first pieces)) := by
  have hleft : h.writesLeft ≤ 3 := by
    unfold writesLeft
    split <;> decide
  obtain ⟨x, hrun, hyes, hno⟩ := drive_from hreply hf hsmall hf.residue_nil
    (by simpa using hstream) (show pieces.length + h.writesLeft < pieces.length + 4 by omega)
  refine ⟨x, hrun, ⟨?_, hyes⟩, ⟨?_, hno⟩⟩
  · intro hopens
    by_contra hbig
    have hout := hopens.1
    rw [hno hbig] at hout
    cases hout
  · intro hlarge hfit
    have hout := (hyes hfit).1
    rw [hlarge] at hout
    cases hout

end Reply

def httpProxy : Proxy where
  kind := .http
  addr := ⟨.ofOctets 10 0 0 1, 3128⟩
  serverName := []
  username := none
  password := none

def originAddr : SocketAddr := ⟨.ofOctets 93 184 216 34, 443⟩

def established : Bytes := ascii "HTTP/1.1 200 OK\r\n\r\n"

theorem handshake_cap_split :
    ((connect httpProxy originAddr).outlook established).2 = .opened none [] ∧
      ∃ x, drive 5 (connect httpProxy originAddr) (established.take 9)
          [established.drop 9 ++ ascii "hi"] = some x ∧
        x.outcome = .ok (some (ascii "hi")) := by
  have hreply : ((connect httpProxy originAddr).outlook established).2 = .opened none [] := rfl
  have hstream : established.take 9 ++ [established.drop 9 ++ ascii "hi"].flatten =
      established ++ ascii "hi" := by decide +kernel
  obtain ⟨x, hrun, hopens, -⟩ := handshake_cap hreply (connect_fresh httpProxy originAddr)
    (by decide +kernel) hstream
  have hfits : Fits (connect httpProxy originAddr)
      (completing established.length [] (established.take 9)
        [established.drop 9 ++ ascii "hi"]) := by
    unfold Fits
    decide +kernel
  exact ⟨hreply, x, hrun, (hopens.mpr hfits).1⟩

/-- A short reply that arrives together with more than the cap of the tunnel's data. -/
theorem coalesced_reply_refused :
    ((connect httpProxy originAddr).outlook established).2 = .opened none [] ∧
      established.length ≤ handshakeBufCap ∧
      ∃ x, drive 4 (connect httpProxy originAddr)
          (established ++ List.replicate handshakeBufCap 0) [] = some x ∧
        x.outcome = .error .headerTooLarge ∧
        ¬ Opens established ([], established ++ List.replicate handshakeBufCap 0, []) x := by
  have hover := @step_overflow (connect httpProxy originAddr)
    (established ++ List.replicate handshakeBufCap 0) (by
      have hempty : (connect httpProxy originAddr).inbuf = [] := rfl
      have hlen : established.length = 19 := by decide +kernel
      rw [hempty, List.nil_append, List.length_append, List.length_replicate, hlen]
      omega)
  refine ⟨rfl, by decide +kernel, _, by rw [drive, hover], rfl, ?_⟩
  intro hopens
  cases hopens.1

end Adwarden.Core.Handshake
