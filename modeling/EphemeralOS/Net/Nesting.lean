import EphemeralOS.Net.ColdStart

/-!
# How deep `ip_send` nests

`ip_send` hands the frames it polls to `eth_receive_frame`, which calls
`ip_send` again for an echo request. The functions here follow the recursion of
`ethReceiveFrame` and count the activations of `ip_send` that are there at once
(`activations_eq`).

An echo request from a peer whose address is unknown makes the next poll, so
echo requests nest as deep as there are of them, and no deeper
(`nesting_by_echo_requests`).
-/

namespace EphemeralOS

section Count

-- the activations while one frame is handled
variable (inner : Memory → UInt16 → NetState → Nat)

/-- While a poll is handled. -/
def pollActivations (s : NetState) : Nat :=
  match networkReceivePacket s with
  | (some packet, s) => if packet.length > 0 then inner packet.bytes packet.length s else 0
  | (none, _) => 0

/-- While `ip_send` waits for an address. -/
def arpWaitActivations (targetIp : UInt32) : Nat → NetState → Nat
  | 0, _ => 0
  | retries + 1, s =>
    let found := (arpResolve targetIp (pollNetwork ethReceiveFrame s)).isSome
    max (pollActivations inner s)
      (if found then 0
        else arpWaitActivations targetIp retries (pollNetwork ethReceiveFrame s))

/-- While `ip_send` runs, itself included. -/
def ipSendActivations (destIp : UInt32) (data : List UInt8) (s : NetState) : Nat :=
  let totalLength := ipHeaderMinLen + UInt16.ofNat data.length
  if totalLength > 1500 then 1 else
  let s := s.numbered
  let targetIp := ipTarget s.ipAddress destIp
  match arpResolve targetIp s with
  | some _ => 1
  | none => 1 + arpWaitActivations inner targetIp 10 (arpSendRequest targetIp s)

/-- While `icmp_receive` runs. -/
def icmpReceiveActivations (srcIp : UInt32) (data : Memory) (length : UInt16) (s : NetState) :
    Nat :=
  if length < 8 then 0 else
  if (icmpHeaderLayout.dec (data.bytes 0 8)).type = icmpTypeEchoRequest then
    ipSendActivations inner srcIp (echoReply data length) s
  else 0

/-- While `eth_receive_frame` runs. -/
def frameActivations (frame : Memory) (length : UInt16) (s : NetState) : Nat :=
  match ethPayload frame length with
  | some (.ip, off, n) =>
    match ipPayload s.ipAddress (frame.shift off) n with
    | some (protocol, srcIp, off', n') =>
      if protocol = ipProtoIcmp then
        icmpReceiveActivations inner srcIp ((frame.shift off).shift off') n' s
      else 0
    | none => 0
  | _ => 0

end Count

/-- The activations of `ip_send` while a frame is handled, down to a depth. -/
def activationsIn : Nat → Memory → UInt16 → NetState → Nat
  | 0 => frameActivations fun _ _ _ => 0
  | depth + 1 => frameActivations (activationsIn depth)

/-- The most activations of `ip_send` at once while a frame is handled. -/
def activations (frame : Memory) (length : UInt16) (s : NetState) : Nat :=
  activationsIn s.arrivals.length frame length s

/-! ## The recursion -/

theorem networkReceivePacket_some {s s' : NetState} {packet : Packet}
    (h : networkReceivePacket s = (some packet, s')) :
    s.arrivals = some packet :: s'.arrivals ∧ s'.ipAddress = s.ipAddress := by
  rw [networkReceivePacket] at h
  split at h
  · cases h
  · split at h
    · cases h
    · next ha =>
      cases h
      exact ⟨ha, rfl⟩

section Agree

variable {inner inner' : Memory → UInt16 → NetState → Nat} {n : Nat}
  (hagree : ∀ frame length (s : NetState), s.arrivals.length < n →
    inner frame length s = inner' frame length s)

include hagree

theorem pollActivations_congr {s : NetState} (hs : s.arrivals.length ≤ n) :
    pollActivations inner s = pollActivations inner' s := by
  rw [pollActivations, pollActivations]
  split
  · next packet s' h =>
    have hlist := (networkReceivePacket_some h).1
    rw [hlist, List.length_cons] at hs
    rw [hagree _ _ s' hs]
  · rfl

theorem arpWaitActivations_congr (targetIp : UInt32) (retries : Nat) {s : NetState}
    (hs : s.arrivals.length ≤ n) :
    arpWaitActivations inner targetIp retries s = arpWaitActivations inner' targetIp retries s := by
  induction retries generalizing s with
  | zero => rfl
  | succ retries ih =>
    have hpoll := (pollNetwork_steps ethReceiveFrame_steps s).arrivals.length_le
    simp only [arpWaitActivations]
    rw [pollActivations_congr hagree hs, ih (by omega)]

theorem ipSendActivations_congr (destIp : UInt32) (data : List UInt8) {s : NetState}
    (hs : s.arrivals.length ≤ n) :
    ipSendActivations inner destIp data s = ipSendActivations inner' destIp data s := by
  have hwait : ∀ targetIp,
      arpWaitActivations inner targetIp 10 (arpSendRequest targetIp s.numbered) =
      arpWaitActivations inner' targetIp 10 (arpSendRequest targetIp s.numbered) := by
    intro targetIp
    have hle := (arpSendRequest_steps targetIp s.numbered).arrivals.length_le
    exact arpWaitActivations_congr hagree targetIp 10 (Nat.le_trans hle hs)
  simp only [ipSendActivations, hwait]

theorem frameActivations_congr (frame : Memory) (length : UInt16) {s : NetState}
    (hs : s.arrivals.length ≤ n) :
    frameActivations inner frame length s = frameActivations inner' frame length s := by
  simp only [frameActivations, icmpReceiveActivations, ipSendActivations_congr hagree _ _ hs]

end Agree

theorem activationsIn_succ (depth : Nat) (frame : Memory) (length : UInt16) {s : NetState}
    (hs : s.arrivals.length ≤ depth) :
    activationsIn (depth + 1) frame length s = activationsIn depth frame length s := by
  induction depth generalizing frame length s with
  | zero =>
    exact frameActivations_congr (fun _ _ _ h => absurd h (Nat.not_lt_zero _)) frame length hs
  | succ depth ih =>
    exact frameActivations_congr (fun frame length s h => ih frame length (by omega)) frame length
      hs

theorem activationsIn_eq {depth : Nat} (frame : Memory) (length : UInt16) {s : NetState}
    (hs : s.arrivals.length ≤ depth) :
    activationsIn depth frame length s = activations frame length s := by
  induction depth with
  | zero => rw [activations, Nat.le_zero.mp hs]
  | succ depth ih =>
    rcases Nat.lt_or_ge depth s.arrivals.length with h | h
    · rw [activations, show s.arrivals.length = depth + 1 by omega]
    · rw [activationsIn_succ depth frame length h, ih h]

/-- **The count follows the recursion of the source**: the activations in a polled frame are counted
as those in any other. -/
theorem activations_eq (frame : Memory) (length : UInt16) (s : NetState) :
    activations frame length s = frameActivations activations frame length s := by
  rw [activations, ← activationsIn_succ _ frame length (Nat.le_refl _)]
  exact frameActivations_congr
    (fun frame length s h => activationsIn_eq frame length (Nat.le_of_lt h))
    frame length (Nat.le_refl _)

/-! ## The bound -/

/-- A packet that makes `icmp_receive` call `ip_send`. -/
def Packet.isEchoRequest (localIp : UInt32) (p : Packet) : Bool :=
  match ethPayload p.bytes p.length with
  | some (.ip, off, n) =>
    match ipPayload localIp (p.bytes.shift off) n with
    | some (protocol, _, off', n') =>
      let data := (p.bytes.shift off).shift off'
      decide (protocol = ipProtoIcmp ∧ ¬ n' < 8 ∧
        (icmpHeaderLayout.dec (data.bytes 0 8)).type = icmpTypeEchoRequest)
    | none => false
  | _ => false

/-- How many echo requests the network will deliver. -/
def echoRequests (localIp : UInt32) (arrivals : List (Option Packet)) : Nat :=
  arrivals.countP fun arrival => arrival.any (Packet.isEchoRequest localIp)

theorem echoRequests_suffix (localIp : UInt32) {l l' : List (Option Packet)} (h : l <:+ l') :
    echoRequests localIp l ≤ echoRequests localIp l' := h.sublist.countP_le

theorem frameActivations_le {inner : Memory → UInt16 → NetState → Nat} {s : NetState} {bound : Nat}
    (h : ∀ destIp data, ipSendActivations inner destIp data s ≤ bound) (p : Packet) :
    frameActivations inner p.bytes p.length s ≤
      if p.isEchoRequest s.ipAddress then bound else 0 := by
  simp only [frameActivations]
  split
  · next off n heth =>
    split
    · next protocol srcIp off' n' hip =>
      split
      · next hprotocol =>
        simp only [icmpReceiveActivations]
        split <;> [exact Nat.zero_le _; skip]
        next hlen =>
        split
        · next htype =>
          have hecho : p.isEchoRequest s.ipAddress = true := by
            simp only [Packet.isEchoRequest, heth, hip]
            exact decide_eq_true ⟨hprotocol, hlen, htype⟩
          rw [if_pos hecho]
          exact h _ _
        · exact Nat.zero_le _
      · exact Nat.zero_le _
    · exact Nat.zero_le _
  · exact Nat.zero_le _

section Bound

variable {n : Nat}
  (hinner : ∀ (p : Packet) (s : NetState), s.arrivals.length < n →
    activations p.bytes p.length s ≤
      if p.isEchoRequest s.ipAddress then 1 + echoRequests s.ipAddress s.arrivals else 0)

include hinner

theorem pollActivations_le {s : NetState} (hs : s.arrivals.length ≤ n) :
    pollActivations activations s ≤ echoRequests s.ipAddress s.arrivals := by
  rw [pollActivations]
  split
  · next packet s' h =>
    obtain ⟨hlist, hip⟩ := networkReceivePacket_some h
    have hle := hinner packet s' (by rw [hlist, List.length_cons] at hs; omega)
    rw [hip] at hle
    split
    · rw [hlist, echoRequests, List.countP_cons, ← echoRequests, Option.any_some]
      split at hle
      · next hecho =>
        rw [if_pos hecho]
        omega
      · omega
    · exact Nat.zero_le _
  · exact Nat.zero_le _

theorem arpWaitActivations_le (targetIp : UInt32) (retries : Nat) {s : NetState}
    (hs : s.arrivals.length ≤ n) :
    arpWaitActivations activations targetIp retries s ≤ echoRequests s.ipAddress s.arrivals := by
  induction retries generalizing s with
  | zero => exact Nat.zero_le _
  | succ retries ih =>
    have hsteps := pollNetwork_steps ethReceiveFrame_steps s
    have hrest := ih (Nat.le_trans hsteps.arrivals.length_le hs)
    rw [hsteps.sameSetup.ipAddress] at hrest
    have hsuffix := echoRequests_suffix s.ipAddress hsteps.arrivals
    simp only [arpWaitActivations]
    refine Nat.max_le.mpr ⟨pollActivations_le hinner hs, ?_⟩
    split
    · exact Nat.zero_le _
    · omega

theorem ipSendActivations_le_of (destIp : UInt32) (data : List UInt8) {s : NetState}
    (hs : s.arrivals.length ≤ n) :
    ipSendActivations activations destIp data s ≤ 1 + echoRequests s.ipAddress s.arrivals := by
  simp only [ipSendActivations]
  split <;> [exact Nat.le_add_right _ _; skip]
  split
  · exact Nat.le_add_right _ _
  · have hsteps := arpSendRequest_steps (ipTarget s.numbered.ipAddress destIp) s.numbered
    have hwait := arpWaitActivations_le hinner (ipTarget s.numbered.ipAddress destIp) 10
      (Nat.le_trans hsteps.arrivals.length_le hs)
    rw [hsteps.sameSetup.ipAddress] at hwait
    have hsuffix := echoRequests_suffix s.ipAddress hsteps.arrivals
    exact Nat.add_le_add_left (Nat.le_trans hwait hsuffix) 1

end Bound

theorem activations_le (p : Packet) (s : NetState) : activations p.bytes p.length s ≤
    if p.isEchoRequest s.ipAddress then 1 + echoRequests s.ipAddress s.arrivals else 0 := by
  -- by induction on the number of arrivals: a poll leaves one less
  generalize hn : s.arrivals.length = n
  induction n using Nat.strong_induction_on generalizing p s with
  | _ n ih =>
    rw [activations_eq]
    refine frameActivations_le (fun destIp data => ?_) p
    exact ipSendActivations_le_of (n := n) (fun p s hs => ih _ hs p s rfl) destIp data (by omega)

/-- **No more activations than echo requests, and one.** -/
theorem ipSendActivations_le (destIp : UInt32) (data : List UInt8) (s : NetState) :
    ipSendActivations activations destIp data s ≤ 1 + echoRequests s.ipAddress s.arrivals :=
  ipSendActivations_le_of (n := s.arrivals.length) (fun p s _ => activations_le p s) destIp data
    (Nat.le_refl _)

/-! ## Nested echo requests -/

section EchoFrame

variable {buffer : Memory} {peer : NetState} {mac : Mac} {localIp : UInt32} {id sequence : UInt16}
  {data : List UInt8} (hdata : data.length ≤ 1472) {p : Packet}
  (hp : p = arrival buffer (echoFrame peer mac localIp icmpTypeEchoRequest id sequence data))

include hdata hp

theorem echoFrame_payload : ∃ n n', ethPayload p.bytes p.length = some (.ip, 14, n) ∧
    ipPayload localIp (p.bytes.shift 14) n = some (ipProtoIcmp, peer.ipAddress, 20, n') ∧
    ¬ n' < 8 ∧ (icmpHeaderLayout.dec (((p.bytes.shift 14).shift 20).bytes 0 8)).type =
      icmpTypeEchoRequest ∧
    echoReply ((p.bytes.shift 14).shift 20) n' =
      echoMessage icmpTypeEchoReply id sequence data := by
  have hlen := length_echoMessage icmpTypeEchoRequest id sequence data
  have hpayload : ∃ n n', ethPayload p.bytes p.length = some (.ip, 14, n) ∧
      ipPayload localIp (p.bytes.shift 14) n = some (ipProtoIcmp, peer.ipAddress, 20, n') ∧
      n'.toNat = (echoMessage icmpTypeEchoRequest id sequence data).length ∧
      ((p.bytes.shift 14).shift 20).Stands 0
        (echoMessage icmpTypeEchoRequest id sequence data) := by
    rw [hp]
    exact payload_ipFrame (arrival_stands buffer _) (by omega)
  obtain ⟨n, n', heth, hpay, hn', hstands⟩ := hpayload
  rw [hlen] at hn'
  obtain ⟨⟨checksum, hheader⟩, -⟩ := stands_echoMessage hstands
  have hlong : ¬ n' < 8 := by
    rw [UInt16.lt_iff_toNat_lt, hn']
    exact Nat.not_lt.mpr (Nat.le_add_right 8 _)
  exact ⟨n, n', heth, hpay, hlong, by rw [hheader], echoReply_echoMessage hn' hstands⟩

theorem isEchoRequest_echoFrame : p.isEchoRequest localIp = true := by
  obtain ⟨n, n', heth, hpay, hlong, htype, -⟩ := echoFrame_payload hdata hp
  simp only [Packet.isEchoRequest, heth, hpay]
  exact decide_eq_true ⟨trivial, hlong, htype⟩

theorem echoFrame_activations {s : NetState} (hip : s.ipAddress = localIp) :
    activations p.bytes p.length s = ipSendActivations activations peer.ipAddress
      (echoMessage icmpTypeEchoReply id sequence data) s := by
  obtain ⟨n, n', heth, hpay, hlong, htype, hreply⟩ := echoFrame_payload hdata hp
  rw [activations_eq]
  simp only [frameActivations, heth, hip, hpay, icmpReceiveActivations, htype, hreply,
    if_neg hlong, if_true]

end EchoFrame

theorem networkReceivePacket_cons {s : NetState} (hs : s.initialized = true) {p : Packet}
    {rest : List (Option Packet)} (h : s.arrivals = some p :: rest) :
    networkReceivePacket s = (some p, { s with arrivals := rest }) := by
  rw [networkReceivePacket, hs, if_neg (by decide), h]

/-- **Echo requests nest**: each one that is waiting adds an activation. -/
theorem nested_activations {buffer : Memory} {peer : NetState} {mac : Mac} {localIp : UInt32}
    {id sequence : UInt16} {data : List UInt8} (hdata : data.length ≤ 1472) {p : Packet}
    (hp : p = arrival buffer (echoFrame peer mac localIp icmpTypeEchoRequest id sequence data))
    (hlength : p.length > 0) (n : Nat) {s : NetState} (hs : s.initialized = true)
    (hip : s.ipAddress = localIp)
    (hcache : ∀ i, (s.arpCache i).valid = false)
    (harrivals : s.arrivals = List.replicate n (some p)) (destIp : UInt32) {sent : List UInt8}
    (hsent : sent.length ≤ 1480) : 1 + n ≤ ipSendActivations activations destIp sent s := by
  have hrequest := fun (s : NetState) (hip : s.ipAddress = localIp) =>
    echoFrame_activations hdata hp hip
  have hreply : (echoMessage icmpTypeEchoReply id sequence data).length ≤ 1480 := by
    rw [length_echoMessage]
    omega
  clear hp hdata
  induction n generalizing s destIp sent with
  | zero =>
    simp only [ipSendActivations]
    split <;> [exact Nat.le_refl 1; skip]
    split
    · exact Nat.le_refl 1
    · exact Nat.le_add_right 1 _
  | succ n ih =>
    simp only [ipSendActivations, if_neg (totalLength_fits hsent),
      arpResolve_empty (s := s.numbered) hcache]
    refine Nat.add_le_add_left ?_ 1
    -- the address is asked for, and the first poll finds an echo request
    rw [arpSendRequest_eq, networkSendPacket_arpFrame (s := s.numbered) hs]
    generalize arpFrame _ _ _ = frame
    rw [arpWaitActivations, pollActivations,
      networkReceivePacket_cons (s := s.numbered.log (.sent frame)) hs harrivals]
    refine Nat.le_trans ?_ (Nat.le_max_left _ _)
    simp only [if_pos hlength]
    have hnested : ∀ s : NetState, s.initialized = true → s.ipAddress = localIp →
        (∀ i, (s.arpCache i).valid = false) → s.arrivals = List.replicate n (some p) →
        1 + n ≤ activations p.bytes p.length s := by
      intro s hs hip hcache harrivals
      rw [hrequest s hip]
      exact ih hs hip hcache harrivals peer.ipAddress hreply
    rw [Nat.add_comm]
    exact hnested _ hs hip hcache rfl

/-- An echo request for 10.0.2.15 from 10.0.2.2. -/
def neighbourEcho : Packet :=
  arrival (fun _ => 0) (echoFrame { NetState.static true CArray.zero with ipAddress := 0x0A000202 }
    broadcastMac 0x0A00020F icmpTypeEchoRequest 0 0 [])

/-- The kernel's node with `n` echo requests waiting. -/
def echoed (n : Nat) : NetState :=
  { kernelNet with arrivals := List.replicate n (some neighbourEcho) }

theorem neighbourEcho_isEchoRequest : neighbourEcho.isEchoRequest 0x0A00020F = true :=
  isEchoRequest_echoFrame (show [].length ≤ 1472 from Nat.zero_le _) rfl

theorem echoed_echoRequests (n : Nat) :
    echoRequests (echoed n).ipAddress (echoed n).arrivals = n := by
  rw [echoRequests, echoed]
  simp only [List.countP_replicate]
  exact if_pos neighbourEcho_isEchoRequest

theorem echoed_activations (n : Nat) (destIp : UInt32) {sent : List UInt8}
    (hsent : sent.length ≤ 1480) : 1 + n ≤ ipSendActivations activations destIp sent (echoed n) :=
  nested_activations (Nat.zero_le _) (p := neighbourEcho) rfl (by decide) n rfl rfl (fun _ => rfl)
    rfl destIp hsent

/-- **With `n` echo requests on the way, at most `n + 1` activations of `ip_send` are there at once,
and there may be as many.** -/
theorem nesting_by_echo_requests :
    (∀ (destIp : UInt32) (data : List UInt8) (s : NetState),
      ipSendActivations activations destIp data s ≤ 1 + echoRequests s.ipAddress s.arrivals) ∧
    ∀ n, ∃ s : NetState, echoRequests s.ipAddress s.arrivals = n ∧ s.arrivals.length = n ∧
      ∀ (destIp : UInt32) (data : List UInt8), data.length ≤ 1480 →
        ipSendActivations activations destIp data s = 1 + n := by
  refine ⟨ipSendActivations_le, fun n =>
    ⟨echoed n, echoed_echoRequests n, List.length_replicate, fun destIp data hdata => ?_⟩⟩
  have hle := ipSendActivations_le destIp data (echoed n)
  have hge := echoed_activations n destIp hdata
  rw [echoed_echoRequests] at hle
  omega

/-- No constant bounds the activations. -/
theorem nesting_unbounded : ¬ ∃ bound, ∀ (destIp : UInt32) (data : List UInt8) (s : NetState),
    ipSendActivations activations destIp data s ≤ bound := by
  rintro ⟨bound, h⟩
  have hle := h 0x0A000202 [] (echoed bound)
  have hge := echoed_activations bound 0x0A000202 (show [].length ≤ 1480 by decide)
  omega

end EphemeralOS
