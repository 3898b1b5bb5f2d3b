import Adwarden.Core.EventCodec
import Adwarden.Lib.Tally
import Adwarden.Lib.Wrapping

/-! The capture repository of the app: session counters and the live log, and the increments it
emits for the daily aggregates. -/
namespace Adwarden.Data
open Adwarden.Lib Adwarden.Net Adwarden.Core.NativeEventCodec

/-- The increments of one batch. -/
structure StatsDelta where
  packets : Int64 := 0
  bytes : Int64 := 0
  tcpPackets : Int64 := 0
  dnsQueries : Int64 := 0
  blocked : Int64 := 0
  blockedDomains : Tally Str Int32 := .empty
  blockedApps : Tally ℤ Int32 := .empty

structure CaptureStats where
  running : Bool := false
  startedAtMs : Int64 := 0
  packets : Int64 := 0
  bytes : Int64 := 0
  tcpPackets : Int64 := 0
  udpPackets : Int64 := 0
  dnsQueries : Int64 := 0
  distinctDestinations : ℕ := 0
  blockedQueries : Int64 := 0

structure CaptureRepository where
  seq : Int64 := 0
  packets : Int64 := 0
  bytes : Int64 := 0
  tcp : Int64 := 0
  udp : Int64 := 0
  dns : Int64 := 0
  blocked : Int64 := 0
  startedAt : Int64 := 0
  isRunning : Bool := false
  lastPublish : Int64 := 0
  dests : List Str := []
  recent : List ConnectionEvent := []
  stats : CaptureStats := {}
  events : List ConnectionEvent := []
  running : Bool := false

def maxEvents : ℕ := 400

def publishIntervalMs : Int64 := 150

def isDns (e : ConnectionEvent) : Bool :=
  e.proto = .udp && (e.dstPort = 53 || e.dstPort = 5353)

namespace CaptureRepository

def publish (r : CaptureRepository) (force : Bool) (now : Int64) : CaptureRepository :=
  if !force && now - r.lastPublish < publishIntervalMs then r
  else
    { r with
      lastPublish := now
      stats :=
        { running := r.isRunning, startedAtMs := r.startedAt, packets := r.packets, bytes := r.bytes
          tcpPackets := r.tcp, udpPackets := r.udp, dnsQueries := r.dns
          distinctDestinations := r.dests.length, blockedQueries := r.blocked }
      events := r.recent }

/-- `startedAt` and `now` are two readings of the clock. -/
def onStarted (r : CaptureRepository) (startedAt now : Int64) : CaptureRepository :=
  publish
    { r with
      packets := 0, bytes := 0, tcp := 0, udp := 0, dns := 0, blocked := 0, seq := 0, dests := []
      recent := [], startedAt := startedAt, isRunning := true, running := true } true now

def onStopped (r : CaptureRepository) (now : Int64) : CaptureRepository :=
  publish { r with isRunning := false, running := false } true now

/-- An event on the session counters and the live log. -/
def count (r : CaptureRepository) (e : ConnectionEvent) : CaptureRepository :=
  match e.coarse with
  | some c =>
    { r with
      packets := r.packets + .ofInt c.packets, bytes := r.bytes + .ofInt c.bytes
      tcp := r.tcp + .ofInt c.tcpPackets, udp := r.udp + .ofInt c.udpPackets
      dns := r.dns + .ofInt c.dnsQueries }
  | none =>
    { r with
      packets := r.packets + 1
      bytes := r.bytes + .ofInt e.length
      tcp := if e.proto = .tcp then r.tcp + 1 else r.tcp
      udp := if e.proto = .udp then r.udp + 1 else r.udp
      dns := if isDns e then r.dns + 1 else r.dns
      blocked := if e.verdict = .block then r.blocked + 1 else r.blocked
      dests := if r.dests.length < 8000 then r.dests.insert e.dstIp else r.dests
      seq := r.seq + 1
      recent := ({ e with id := (r.seq + 1).toInt } :: r.recent).take maxEvents }

end CaptureRepository

/-- An event on the increments of its batch. -/
def StatsDelta.count (d : StatsDelta) (e : ConnectionEvent) : StatsDelta :=
  match e.coarse with
  | some c =>
    { d with
      packets := d.packets + .ofInt c.packets, bytes := d.bytes + .ofInt c.bytes
      tcpPackets := d.tcpPackets + .ofInt c.tcpPackets
      dnsQueries := d.dnsQueries + .ofInt c.dnsQueries }
  | none =>
    let d :=
      { d with
        packets := d.packets + 1
        bytes := d.bytes + .ofInt e.length
        tcpPackets := if e.proto = .tcp then d.tcpPackets + 1 else d.tcpPackets
        dnsQueries := if isDns e then d.dnsQueries + 1 else d.dnsQueries }
    if e.verdict = .block then
      { d with
        blocked := d.blocked + 1
        blockedDomains :=
          match e.blockedDomain with
          | some domain => d.blockedDomains.merge domain 1
          | none => d.blockedDomains
        blockedApps :=
          match e.uid with
          | some uid => if 0 < uid then d.blockedApps.merge uid 1 else d.blockedApps
          | none => d.blockedApps }
    else d

/-- The increments emitted, and the repository after it. -/
def CaptureRepository.onEvents (r : CaptureRepository) (batch : List ConnectionEvent)
    (now : Int64) : Option StatsDelta × CaptureRepository :=
  if batch = [] then (none, r)
  else
    let (r, d) := batch.foldl (fun (r, d) e => (r.count e, StatsDelta.count d e)) (r, {})
    (some d, r.publish false now)

/-- Running totals of one flush window. -/
structure Accumulator where
  packets : Int64 := 0
  bytes : Int64 := 0
  tcpPackets : Int64 := 0
  dnsQueries : Int64 := 0
  blocked : Int64 := 0
  domains : Tally Str Int32 := .empty
  apps : Tally ℤ Int32 := .empty
  dirty : Bool := false

structure Snapshot where
  packets : Int64
  bytes : Int64
  tcpPackets : Int64
  dnsQueries : Int64
  blocked : Int64
  domains : Tally Str Int32
  apps : Tally ℤ Int32

namespace Accumulator

def add (a : Accumulator) (delta : StatsDelta) : Accumulator where
  packets := a.packets + delta.packets
  bytes := a.bytes + delta.bytes
  tcpPackets := a.tcpPackets + delta.tcpPackets
  dnsQueries := a.dnsQueries + delta.dnsQueries
  blocked := a.blocked + delta.blocked
  domains := a.domains.mergeAll delta.blockedDomains
  apps := a.apps.mergeAll delta.blockedApps
  dirty := true

/-- The accumulated window and the accumulator after it, or nothing when none is pending. -/
def drain (a : Accumulator) : Option Snapshot × Accumulator :=
  if !a.dirty then (none, a)
  else
    (some ⟨a.packets, a.bytes, a.tcpPackets, a.dnsQueries, a.blocked, a.domains, a.apps⟩, {})

end Accumulator

end Adwarden.Data
