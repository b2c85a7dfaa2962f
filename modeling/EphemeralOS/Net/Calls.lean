import EphemeralOS.Net.Receive
import EphemeralOS.Lib.Run

/-!
# Initialisation and calls

The `init` functions in the order of `kernel_main`, and what the commands call:
`icmp_send_echo_request` and `icmp_wait_reply` (`ping`), `dns_resolve` and
`ntp_sync_time`. A run of the stack is a sequence of `NetOp`s, between which
packets arrive.
-/

namespace EphemeralOS

open Relation

def arpInit (s : NetState) : NetState :=
  { s with arpCache := fun i => { s.arpCache i with valid := false }, arpTimer := 0 }

def ipInit (s : NetState) : NetState := { s with ipIdCounter := 1 }

def icmpInit (s : NetState) : NetState :=
  { s with pingStates := fun i => { s.pingStates i with received := false }, icmpTimer := 0 }

def udpInit (s : NetState) : NetState := { s with udpHandlers := fun _ => ⟨0, none⟩ }

def dnsInit (s : NetState) : NetState := udpRegisterHandler dnsPort .dnsResponseHandler s

def ntpInit (s : NetState) : NetState := udpRegisterHandler ntpPort .ntpResponseHandler s

/-- The network part of `kernel_main`, from `arp_init` on. -/
def netInit (s : NetState) : NetState :=
  let s := ntpInit (dnsInit (udpInit (icmpInit (ipInit (arpInit s)))))
  if s.initialized then { s with ipAddress := 0x0A00020F, dnsServer := 0x0A000203 } else s

/-! ## Calls -/

def poll (s : NetState) : NetState := pollNetwork ethReceiveFrame s

def pingAnswered (s : NetState) (destIp : UInt32) (sequence : UInt16) : Bool :=
  (List.finRange 16).any fun i => (s.pingStates i).ip = destIp ∧
    (s.pingStates i).sequence = sequence ∧ (s.pingStates i).received

/-- The loop of `icmp_wait_reply`, for at most `rounds` rounds. -/
def waitLoop (destIp : UInt32) (sequence : UInt16) (startTime timeoutMs : UInt32) :
    Nat → NetState → Bool × NetState
  | 0, s => (false, s)
  | rounds + 1, s =>
    if s.icmpTimer - startTime < timeoutMs then
      let s := poll s
      if pingAnswered s destIp sequence then (true, s)
      else waitLoop destIp sequence startTime timeoutMs rounds { s with icmpTimer := s.icmpTimer + 1 }
    else (false, s)

/-- `icmp_wait_reply`. Each round adds 1 to the timer, so `timeout_ms` rounds are all there are
(`icmpWaitReply_timeout`). -/
def icmpWaitReply (destIp : UInt32) (sequence : UInt16) (timeoutMs : UInt32) (s : NetState) :
    Bool × NetState :=
  waitLoop destIp sequence s.icmpTimer timeoutMs timeoutMs.toNat s

/-- The polling loop of `dns_resolve` and `ntp_sync_time`. -/
def pollUntil (complete : NetState → Bool) : Nat → NetState → NetState
  | 0, s => s
  | timeout + 1, s => if complete s then s else pollUntil complete timeout (poll s)

/-- The query takes an id, and there is no result yet. -/
def dnsReset (s : NetState) : NetState :=
  { s with
    dnsTransactionId := s.dnsTransactionId + 1, resolvedIp := 0, resolutionComplete := false }

def ntpReset (s : NetState) : NetState := { s with syncedTimestamp := 0, syncComplete := false }

/-- What `dns_resolve` passes to `udp_send`: destination, ports and data. -/
def dnsRequest (hostname : List UInt8) (s : NetState) : UInt32 × UInt16 × UInt16 × List UInt8 :=
  (s.dnsServer, 12345, dnsPort, dnsQuery s.dnsTransactionId hostname)

/-- The part of `dns_resolve` that asks: the result variables are cleared, the query is sent, and
the network is polled. -/
def dnsAsk (hostname : List UInt8) (s : NetState) : NetState :=
  let (server, srcPort, destPort, query) := dnsRequest hostname s
  let s := dnsReset s
  let s := udpSend ethReceiveFrame server srcPort destPort query s
  pollUntil (·.resolutionComplete) dnsTimeoutMs s

/-- `dns_resolve`: the address, if it returns 1. -/
def dnsResolve (hostname : List UInt8) (s : NetState) : Option UInt32 × NetState :=
  if isIpAddress hostname then (some (parseIp hostname), s) else
  let s := dnsAsk hostname s
  (if s.resolutionComplete ∧ s.resolvedIp ≠ 0 then some s.resolvedIp else none, s)

/-- What `ntp_sync_time` passes to `udp_send`. -/
def ntpRequestTo (localTime : UInt32) (s : NetState) : UInt32 × UInt16 × UInt16 × List UInt8 :=
  (s.ntpServer, ntpPort, ntpPort, ntpRequest localTime)

/-- The part of `ntp_sync_time` that asks. -/
def ntpAsk (localTime : UInt32) (s : NetState) : NetState :=
  let (server, srcPort, destPort, packet) := ntpRequestTo localTime s
  let s := ntpReset s
  let s := udpSend ethReceiveFrame server srcPort destPort packet s
  pollUntil (·.syncComplete) ntpTimeoutMs s

/-- `ntp_sync_time` at the time `localTime` of the clock: the timestamp, if it returns 1. -/
def ntpSyncTime (localTime : UInt32) (s : NetState) : Option UInt32 × NetState :=
  let s := ntpAsk localTime s
  (if s.syncComplete ∧ s.syncedTimestamp ≠ 0 then some s.syncedTimestamp else none, s)

/-! ## Runs -/

/-- What happens to the stack from outside. -/
inductive NetOp
  | arrive (packets : List (Option Packet))
  | receive (frame : Memory) (length : UInt16)
  | ping (destIp : UInt32) (id sequence : UInt16)
  | wait (destIp : UInt32) (sequence : UInt16) (timeoutMs : UInt32)
  | resolve (hostname : List UInt8)
  | sync (localTime : UInt32)
  | setIp (ip : UInt32)
  | setDnsServer (ip : UInt32)
  | setNtpServer (ip : UInt32)

def NetOp.apply : NetOp → NetState → NetState
  | .arrive packets, s => { s with arrivals := s.arrivals ++ packets }
  | .receive frame length, s => ethReceiveFrame frame length s
  | .ping destIp id sequence, s => icmpSendEchoRequest ethReceiveFrame destIp id sequence s
  | .wait destIp sequence timeoutMs, s => (icmpWaitReply destIp sequence timeoutMs s).2
  | .resolve hostname, s => (dnsResolve hostname s).2
  | .sync localTime, s => (ntpSyncTime localTime s).2
  | .setIp ip, s => { s with ipAddress := ip }
  | .setDnsServer ip, s => { s with dnsServer := ip }
  | .setNtpServer ip, s => { s with ntpServer := ip }

/-! ## What calls do -/

theorem poll_steps (s : NetState) : NetSteps s (poll s) :=
  pollNetwork_steps ethReceiveFrame_steps s

theorem pollUntil_steps (complete : NetState → Bool) (timeout : Nat) (s : NetState) :
    NetSteps s (pollUntil complete timeout s) := by
  induction timeout generalizing s with
  | zero => exact .refl
  | succ timeout ih =>
    rw [pollUntil]
    split
    · exact .refl
    · exact (poll_steps s).trans (ih _)

theorem udpSend_steps (destIp : UInt32) (srcPort destPort : UInt16) (data : List UInt8)
    (s : NetState) : NetSteps s (udpSend ethReceiveFrame destIp srcPort destPort data s) := by
  simp only [udpSend]
  split
  · exact .refl
  · exact ipSend_steps ethReceiveFrame_steps _ _ _ s

theorem dnsAsk_steps (hostname : List UInt8) (s : NetState) :
    NetSteps (dnsReset s) (dnsAsk hostname s) :=
  (udpSend_steps _ _ _ _ (dnsReset s)).trans (pollUntil_steps _ _ _)

theorem ntpAsk_steps (localTime : UInt32) (s : NetState) :
    NetSteps (ntpReset s) (ntpAsk localTime s) :=
  (udpSend_steps _ _ _ _ (ntpReset s)).trans (pollUntil_steps _ _ _)

/-- What polling and the timer keep, `icmp_wait_reply` keeps. -/
theorem waitLoop_keeps {P : NetState → Prop} (hpoll : ∀ s, P s → P (poll s))
    (htick : ∀ s, P s → P { s with icmpTimer := s.icmpTimer + 1 }) (destIp : UInt32)
    (sequence : UInt16) (startTime timeoutMs : UInt32) (rounds : Nat) {s : NetState} (h : P s) :
    P (waitLoop destIp sequence startTime timeoutMs rounds s).2 := by
  induction rounds generalizing s with
  | zero => exact h
  | succ rounds ih =>
    simp only [waitLoop]
    split
    · split
      · exact hpoll s h
      · exact ih (htick _ (hpoll s h))
    · exact h

theorem icmpWaitReply_timeout (destIp : UInt32) (sequence : UInt16) (timeoutMs : UInt32)
    (s : NetState) (h : (icmpWaitReply destIp sequence timeoutMs s).1 = false) :
    (icmpWaitReply destIp sequence timeoutMs s).2.icmpTimer - s.icmpTimer = timeoutMs := by
  -- after each round there are as many rounds left as the timer is away from its goal
  have hloop : ∀ (rounds : Nat) (startTime : UInt32) (t : NetState),
      (t.icmpTimer - startTime).toNat + rounds = timeoutMs.toNat →
      (waitLoop destIp sequence startTime timeoutMs rounds t).1 = false →
      (waitLoop destIp sequence startTime timeoutMs rounds t).2.icmpTimer - startTime =
        timeoutMs := by
    intro rounds startTime
    induction rounds with
    | zero =>
      intro t ht _
      exact UInt32.toNat_inj.mp ht
    | succ rounds ih =>
      intro t ht hfalse
      have hlt : t.icmpTimer - startTime < timeoutMs := UInt32.lt_iff_toNat_lt.mpr (by omega)
      simp only [waitLoop, if_pos hlt] at hfalse ⊢
      split at hfalse
      · cases hfalse
      · next hno =>
        rw [if_neg hno]
        refine ih _ ?_ hfalse
        have htimer : (poll t).icmpTimer = t.icmpTimer := (poll_steps t).sameSetup.icmpTimer
        have hgoal := timeoutMs.toNat_lt
        have hnext : (t.icmpTimer + 1 - startTime).toNat = (t.icmpTimer - startTime).toNat + 1 := by
          have hstart := startTime.toNat_lt
          rw [UInt32.toNat_sub] at ht ⊢
          rw [UInt32.toNat_sub, UInt32.toNat_add]
          change (_ + (_ + 1) % 2 ^ 32) % 2 ^ 32 = _
          omega
        change ((poll t).icmpTimer + 1 - startTime).toNat + rounds = timeoutMs.toNat
        rw [htimer, hnext]
        omega
  refine hloop timeoutMs.toNat s.icmpTimer s ?_ h
  rw [UInt32.sub_self]
  change 0 + _ = _
  omega

end EphemeralOS
