import Mathlib.Algebra.GroupWithZero.Nat
import Mathlib.Data.List.Basic
import Susanow.Base.Runs
import Susanow.Ma.Ring

/-! The pipe PMD.

A device is created over 32 new rings, 16 for each direction, named after it; a device
that is attached to it by its name looks the same rings up with the directions swapped. A
name is cut off to fit in `RTE_RING_NAMESIZE` bytes, and `rte_ring_create` refuses one
that exists. Every queue of a device keeps its own counters over the ring it shares with
a queue of the other device. Rings are never freed, so a ring is known by its name. -/
namespace Susanow
namespace Pipe

/-- The counters are words of 64 bits. -/
structure RingQueue where
  rng : String
  rxPkts : BitVec 64 := 0
  txPkts : BitVec 64 := 0
  errPkts : BitVec 64 := 0
  rxBytes : BitVec 64 := 0
  txBytes : BitVec 64 := 0
  ifIndex : BitVec 8 := 0
  deriving DecidableEq, Repr

/-- A device with its `pmd_internals`, and the name it was attached to. -/
structure Dev where
  name : String
  attach : Option String
  rxRingQueues : List RingQueue
  txRingQueues : List RingQueue
  deriving DecidableEq, Repr

structure Mbuf where
  pktLen : BitVec 32
  port : BitVec 8
  deriving DecidableEq, Repr

/-- What a burst call on queue `queue` of device `dev` was offered and what it moved. -/
structure Burst where
  tx : Bool
  dev : Nat
  queue : Nat
  offered : Nat
  mbufs : List Nat
  deriving DecidableEq, Repr

structure Pipes where
  rings : String → Option (RteRing Nat) := fun _ => none
  devs : List Dev := []
  mbufs : Nat → Mbuf
  bursts : List Burst := []

def maxRings : Nat := 16

/-- `snprintf(name, sizeof(name), "ETH_RX%u_%s", i, devname)`, or with `TX`. -/
def ringName (namesize : Nat) (dir : String) (i : Nat) (devname : String) : String :=
  String.ofList (("ETH_" ++ dir ++ toString i ++ "_" ++ devname).toList.take (namesize - 1))

/-- `alloc` says for which rings there is memory. -/
def rteRingCreate (alloc : String → Bool) (name : String) : Proc Pipes (Option String) := do
  let s ← Proc.get
  if (s.rings name).isNone && alloc name then
    Proc.set {s with rings := Function.update s.rings name (some {name := name, size := 1024})}
    pure (some name)
  else pure none

def rteRingLookup (name : String) : Proc Pipes (Option String) := do
  let s ← Proc.get
  pure (if (s.rings name).isSome then some name else none)

section Probe
variable (namesize : Nat) (alloc : String → Bool)

/-- `(action == DEV_CREATE) ? rte_ring_create(..) : rte_ring_lookup(..)` -/
def openRing (attach : Option String) (created lookedUp : String) : Proc Pipes (Option String) :=
  if attach.isNone then rteRingCreate alloc created else rteRingLookup lookedUp

/-- One turn of the loop of `eth_dev_ring_create`. -/
def openPair (attach : Option String) (rxRngName txRngName : String) : Proc Pipes (Option (String × String)) := do
  let rx ← openRing alloc attach rxRngName txRngName
  match rx with
  | none => pure none
  | some rx => do
    let tx ← openRing alloc attach txRngName rxRngName
    pure (tx.map fun tx => (rx, tx))

/-- The loop; `none` is its `return -1`. -/
def openRings (attach : Option String) (devname : String) : Nat → Proc Pipes (Option (List String × List String))
  | 0 => pure (some ([], []))
  | i + 1 => do
    let opened ← openRings attach devname i
    match opened with
    | none => pure none
    | some (rx, tx) => do
      let pair ← openPair alloc attach (ringName namesize "RX" i devname) (ringName namesize "TX" i devname)
      pure (pair.map fun pair => (rx ++ [pair.1], tx ++ [pair.2]))

/-- `room` says whether there is memory and an ethdev entry for the device. -/
def rteEthFromRings (room : Bool) (name : String) (attach : Option String) (rx tx : List String) :
    Proc Pipes Int := do
  let s ← Proc.get
  if room then
    Proc.set {s with devs := s.devs ++ [⟨name, attach, rx.map fun rng => {rng := rng}, tx.map fun rng => {rng := rng}⟩]}
    pure s.devs.length
  else pure (-1)

def ethDevRingCreate (room : Bool) (name : String) (attach : Option String) : Proc Pipes Int := do
  let opened ← openRings namesize alloc attach (attach.getD name) maxRings
  match opened with
  | none => pure (-1)
  | some (rx, tx) => do
    let ret ← rteEthFromRings room name attach rx tx
    pure (if ret ≠ 0 then -1 else 0)

/-- `rte_pmd_pipe_probe`, which does not look at what `eth_dev_ring_create` returns. -/
def rtePmdPipeProbe (room : Bool) (name : String) (attach : Option String) : Proc Pipes Int := do
  let _ ← ethDevRingCreate namesize alloc room name attach
  pure 0

end Probe

/-! ### Queues and bursts -/

def devAt (dev : Nat) : Proc Pipes Dev := do
  let s ← Proc.get
  match s.devs[dev]? with
  | none => Proc.crash .nullPointer
  | some d => pure d

def queueAt (queues : List RingQueue) (i : Nat) : Proc Pipes RingQueue :=
  match queues[i]? with
  | none => Proc.crash .outOfBounds
  | some r => pure r

def ringAt (rng : String) : Proc Pipes (RteRing Nat) := do
  let s ← Proc.get
  match s.rings rng with
  | none => Proc.crash .danglingPointer
  | some ring => pure ring

def Dev.setRx (d : Dev) (i : Nat) (r : RingQueue) : Dev := {d with rxRingQueues := d.rxRingQueues.set i r}

def Dev.setTx (d : Dev) (i : Nat) (r : RingQueue) : Dev := {d with txRingQueues := d.txRingQueues.set i r}

def ethRxQueueSetup (dev rxQueueId : Nat) : Proc Pipes Unit := do
  let d ← devAt dev
  let r ← queueAt d.rxRingQueues rxQueueId
  Proc.modify fun s => {s with devs := s.devs.set dev (d.setRx rxQueueId {r with ifIndex := BitVec.ofNat 8 dev})}

/-- What the mbufs add to a counter of bytes. -/
def pktBytes (mem : Nat → Mbuf) (bufs : List Nat) : BitVec 64 :=
  bufs.foldl (fun bytes m => bytes + (mem m).pktLen.setWidth 64) 0

def RingQueue.received (r : RingQueue) (mem : Nat → Mbuf) (bufs : List Nat) : RingQueue :=
  {r with rxPkts := r.rxPkts + BitVec.ofNat 64 bufs.length, rxBytes := r.rxBytes + pktBytes mem bufs}

def RingQueue.transmitted (r : RingQueue) (mem : Nat → Mbuf) (bufs : List Nat) (nbTx : Nat) : RingQueue :=
  {r with txPkts := r.txPkts + BitVec.ofNat 64 nbTx
          errPkts := r.errPkts + BitVec.ofNat 64 (bufs.length - nbTx)
          txBytes := r.txBytes + pktBytes mem (bufs.take nbTx)}

/-- Both branches on the ring's flags count the same. -/
def ethRingRx (dev queue nbBufs : Nat) : Proc Pipes (List Nat) := do
  let d ← devAt dev
  let r ← queueAt d.rxRingQueues queue
  let ring ← ringAt r.rng
  let (bufs, ring) := ring.dequeueBurst nbBufs
  Proc.modify fun s =>
    {s with rings := Function.update s.rings r.rng (some ring)
            devs := s.devs.set dev (d.setRx queue (r.received s.mbufs bufs))
            mbufs := fun m => if m ∈ bufs then {s.mbufs m with port := r.ifIndex} else s.mbufs m
            bursts := s.bursts ++ [⟨false, dev, queue, nbBufs, bufs⟩]}
  pure bufs

def ethRingTx (dev queue : Nat) (bufs : List Nat) : Proc Pipes Nat := do
  let d ← devAt dev
  let r ← queueAt d.txRingQueues queue
  let ring ← ringAt r.rng
  let (nbTx, ring) := ring.enqueueBurst bufs
  Proc.modify fun s =>
    {s with rings := Function.update s.rings r.rng (some ring)
            devs := s.devs.set dev (d.setTx queue (r.transmitted s.mbufs bufs nbTx))
            bursts := s.bursts ++ [⟨true, dev, queue, bufs.length, bufs.take nbTx⟩]}
  pure nbTx

/-! ### Runs -/

inductive Op
  | probe (alloc : String → Bool) (room : Bool) (name : String) (attach : Option String)
  | rxQueueSetup (dev rxQueueId : Nat)
  | tx (dev queue : Nat) (bufs : List Nat)
  | rx (dev queue nbBufs : Nat)

def after {α : Type} (s : Pipes) (p : Proc Pipes α) : Option Pipes :=
  match p s with
  | .ret _ s' => some s'
  | _ => none

/-- The lengths of bursts are words of 16 bits. -/
def step (namesize : Nat) (s : Pipes) : Op → Option Pipes
  | .probe alloc room name attach => after s (rtePmdPipeProbe namesize alloc room name attach)
  | .rxQueueSetup dev i => after s (ethRxQueueSetup dev i)
  | .tx dev queue bufs => if bufs.length < 65536 then after s (ethRingTx dev queue bufs) else none
  | .rx dev queue nbBufs => if nbBufs < 65536 then after s (ethRingRx dev queue nbBufs) else none

def Burst.on (tx : Bool) (dev queue : Nat) (b : Burst) : Bool := b.tx == tx && b.dev == dev && b.queue == queue

/-- What a queue has moved so far, in order: `tx` says whether it is one to send. -/
def moved (s : Pipes) (tx : Bool) (dev queue : Nat) : List Nat :=
  (s.bursts.filter (Burst.on tx dev queue)).flatMap Burst.mbufs

def offered (s : Pipes) (dev queue : Nat) : Nat :=
  ((s.bursts.filter (Burst.on true dev queue)).map Burst.offered).sum

def Dev.rngs (d : Dev) : List String := (d.rxRingQueues ++ d.txRingQueues).map RingQueue.rng

/-- Bursts are on the two devices, or on one that has no ring of the first. -/
def OnPair (d a : Nat) (s : Pipes) : Op → Prop
  | .tx e _ _ => e = d ∨ e = a ∨ ∀ D ∈ s.devs[d]?, ∀ E ∈ s.devs[e]?, ∀ r ∈ E.rngs, r ∉ D.rngs
  | .rx e _ _ => e = d ∨ e = a ∨ ∀ D ∈ s.devs[d]?, ∀ E ∈ s.devs[e]?, ∀ r ∈ E.rngs, r ∉ D.rngs
  | _ => True

/-- Queue `i` of device `e` sends to queue `i` of device `f`: the mbufs accepted are those
received and those in the shared ring, and the counters say so. With the other direction,
what a device receives on a queue was sent by the other one on the queue of that index. -/
structure Connected (s : Pipes) (e f i : Nat) (sender receiver : Dev) : Prop where
  flow : ∃ q ∈ sender.txRingQueues[i]?, ∃ q' ∈ receiver.rxRingQueues[i]?, ∃ ring ∈ s.rings q.rng, q'.rng = q.rng ∧
    moved s true e i = moved s false f i ++ ring.objs ∧
    q.txPkts = q'.rxPkts + BitVec.ofNat 64 ring.objs.length ∧
    q.txPkts + q.errPkts = BitVec.ofNat 64 (offered s e i)

/-! ### Names -/

/-- The part of a ring's name that is kept in any case. -/
def nameHead (dir : String) (i : Nat) : List Char := ("ETH_" ++ dir ++ toString i ++ "_").toList.take 8

theorem nameHead_inj : ∀ dir ∈ ["RX", "TX"], ∀ dir' ∈ ["RX", "TX"], ∀ i < 16, ∀ j < 16,
    nameHead dir i = nameHead dir' j → dir = dir' ∧ i = j := by
  decide +kernel

theorem nameHead_length : ∀ dir ∈ ["RX", "TX"], ∀ i < 16,
    8 ≤ ("ETH_" ++ dir ++ toString i ++ "_").toList.length := by
  decide +kernel

theorem ringName_head {namesize : Nat} (hsize : 9 ≤ namesize) {dir : String} (hdir : dir ∈ ["RX", "TX"])
    {i : Nat} (hi : i < 16) (devname : String) :
    (ringName namesize dir i devname).toList.take 8 = nameHead dir i := by
  rw [ringName, String.toList_ofList, List.take_take, Nat.min_eq_left (by omega), String.toList_append,
    List.take_append_of_le_length (nameHead_length dir hdir i hi), nameHead]

/-- The 32 rings of a device are different rings. -/
theorem ringName_inj {namesize : Nat} (hsize : 9 ≤ namesize) {dir dir' : String} (hdir : dir ∈ ["RX", "TX"])
    (hdir' : dir' ∈ ["RX", "TX"]) {i j : Nat} (hi : i < 16) (hj : j < 16) {devname : String}
    (h : ringName namesize dir i devname = ringName namesize dir' j devname) : dir = dir' ∧ i = j := by
  refine nameHead_inj dir hdir dir' hdir' i hi j hj ?_
  rw [← ringName_head hsize hdir hi devname, ← ringName_head hsize hdir' hj devname, h]

/-! ### Opening rings -/

/-- Rings are only added, and new ones are empty. -/
structure Opened (s s' : Pipes) : Prop where
  devs : s'.devs = s.devs
  bursts : s'.bursts = s.bursts
  kept : ∀ x ring, s.rings x = some ring → s'.rings x = some ring
  fresh : ∀ x ring, s.rings x = none → s'.rings x = some ring → ring.objs = []

theorem Opened.refl (s : Pipes) : Opened s s :=
  ⟨rfl, rfl, fun _ _ h => h, fun _ _ h h' => by rw [h] at h'; cases h'⟩

theorem Opened.trans {s s' s'' : Pipes} (h : Opened s s') (h' : Opened s' s'') : Opened s s'' := by
  refine ⟨h'.devs.trans h.devs, h'.bursts.trans h.bursts, fun x ring hx => h'.kept x ring (h.kept x ring hx), ?_⟩
  intro x ring hx hx'
  cases hmid : s'.rings x with
  | none => exact h'.fresh x ring hmid hx'
  | some ring' =>
    rw [h'.kept x ring' hmid] at hx'
    cases hx'
    exact h.fresh x ring hx hmid

theorem Opened.none_of_none {s s' : Pipes} (h : Opened s s') {x : String} (hx : s'.rings x = none) :
    s.rings x = none := by
  cases hx' : s.rings x with
  | none => rfl
  | some ring => rw [h.kept x ring hx'] at hx; cases hx

theorem Opened.ne_none {s s' : Pipes} (h : Opened s s') {x : String} (hx : s.rings x ≠ none) :
    s'.rings x ≠ none := fun hn => hx (h.none_of_none hn)

theorem openRing_returns (alloc : String → Bool) (attach : Option String) (created lookedUp : String) (s : Pipes) :
    Proc.Returns (openRing alloc attach created lookedUp) s fun res s' => Opened s s' ∧ ∀ r, res = some r →
      r = (if attach.isNone then created else lookedUp) ∧ s'.rings r ≠ none ∧
        (attach = none → s.rings created = none) := by
  cases attach with
  | none =>
    by_cases hnew : (s.rings created).isNone && alloc created
    · have hnone : s.rings created = none := by
        simp only [Bool.and_eq_true, Option.isNone_iff_eq_none] at hnew
        exact hnew.1
      refine ⟨some created, {s with rings := Function.update s.rings created (some {name := created, size := 1024})},
        ?_, ⟨rfl, rfl, fun x ring hx => ?_, fun x ring hx hx' => ?_⟩, fun r hr => ?_⟩
      · show rteRingCreate alloc created s = _
        rw [rteRingCreate, Proc.get_bind, if_pos hnew]
        rfl
      · have hne : x ≠ created := by
          rintro rfl
          rw [hnone] at hx
          cases hx
        simpa [Function.update_of_ne hne] using hx
      · by_cases hxc : x = created
        · subst hxc
          simp only [Function.update_self, Option.some.injEq] at hx'
          rw [← hx']
        · simp only [Function.update_of_ne hxc] at hx'
          rw [hx] at hx'
          cases hx'
      · cases hr
        exact ⟨rfl, by simp, fun _ => hnone⟩
    · refine ⟨none, s, ?_, Opened.refl s, nofun⟩
      show rteRingCreate alloc created s = _
      rw [rteRingCreate, Proc.get_bind, if_neg hnew]
      rfl
  | some t =>
    refine ⟨if (s.rings lookedUp).isSome then some lookedUp else none, s, rfl, Opened.refl s, fun r hr => ?_⟩
    split_ifs at hr with hsome
    cases hr
    refine ⟨rfl, fun hn => ?_, nofun⟩
    rw [hn] at hsome
    cases hsome

/-- The rings a device sends to, or receives from, are named so: an attached device has them
the other way round. -/
def dirOf (tx : Bool) (attach : Option String) : String := if attach.isNone == tx then "TX" else "RX"

theorem openPair_returns (alloc : String → Bool) (attach : Option String) (x y : String) (s : Pipes) :
    Proc.Returns (openPair alloc attach x y) s fun res s' => Opened s s' ∧ ∀ r t, res = some (r, t) →
      r = (if attach.isNone then x else y) ∧ t = (if attach.isNone then y else x) ∧
        s'.rings x ≠ none ∧ s'.rings y ≠ none ∧ (attach = none → s.rings x = none ∧ s.rings y = none) := by
  obtain ⟨rx, s₁, hrun, hopen, hrx⟩ := openRing_returns alloc attach x y s
  cases rx with
  | none => exact ⟨none, s₁, by rw [openPair, Proc.bind_ret hrun]; rfl, hopen, nofun⟩
  | some r =>
    obtain ⟨tx, s₂, hrun', hopen', htx⟩ := openRing_returns alloc attach y x s₁
    refine ⟨tx.map fun t => (r, t), s₂, ?_, hopen.trans hopen', fun r' t hres => ?_⟩
    · rw [openPair, Proc.bind_ret hrun]
      show (openRing alloc attach y x >>= fun tx => pure (tx.map fun t => (r, t))) s₁ = _
      rw [Proc.bind_ret hrun']
      rfl
    · obtain ⟨t', rfl, heq⟩ := Option.map_eq_some_iff.mp hres
      cases heq
      obtain ⟨hr, hrne, hrnew⟩ := hrx r rfl
      obtain ⟨ht, htne, htnew⟩ := htx t rfl
      have hrne' := hopen'.ne_none hrne
      refine ⟨hr, ht, ?_, ?_, fun hn => ⟨hrnew hn, hopen.none_of_none (htnew hn)⟩⟩
      · cases attach with
        | none => rwa [show r = x from hr] at hrne'
        | some _ => rwa [show t = x from ht] at htne
      · cases attach with
        | none => rwa [show t = y from ht] at htne
        | some _ => rwa [show r = y from hr] at hrne'

theorem openRings_returns (namesize : Nat) (alloc : String → Bool) (attach : Option String) (devname : String)
    (n : Nat) (s : Pipes) :
    Proc.Returns (openRings namesize alloc attach devname n) s fun res s' => Opened s s' ∧
      ∀ rx tx, res = some (rx, tx) →
        rx = (List.range n).map (ringName namesize (dirOf false attach) · devname) ∧
        tx = (List.range n).map (ringName namesize (dirOf true attach) · devname) ∧
        ∀ i < n, ∀ dir ∈ ["RX", "TX"], s'.rings (ringName namesize dir i devname) ≠ none ∧
          (attach = none → s.rings (ringName namesize dir i devname) = none) := by
  induction n with
  | zero =>
    refine ⟨some ([], []), s, rfl, Opened.refl s, fun rx tx hres => ?_⟩
    cases hres
    exact ⟨rfl, rfl, fun i hi => absurd hi (Nat.not_lt_zero i)⟩
  | succ n ih =>
    obtain ⟨res, s₁, hrun, hopen, hres⟩ := ih
    cases res with
    | none => exact ⟨none, s₁, by rw [openRings, Proc.bind_ret hrun]; rfl, hopen, nofun⟩
    | some rxtx =>
      obtain ⟨rx, tx⟩ := rxtx
      obtain ⟨hrx, htx, hnames⟩ := hres rx tx rfl
      obtain ⟨pair, s₂, hrun', hopen', hpair⟩ := openPair_returns alloc attach
        (ringName namesize "RX" n devname) (ringName namesize "TX" n devname) s₁
      refine ⟨pair.map fun pair => (rx ++ [pair.1], tx ++ [pair.2]), s₂, ?_, hopen.trans hopen', ?_⟩
      · rw [openRings, Proc.bind_ret hrun]
        show (openPair alloc attach _ _ >>= _) s₁ = _
        rw [Proc.bind_ret hrun']
        rfl
      · intro rx' tx' hres
        obtain ⟨⟨r, t⟩, hrt, heq⟩ := Option.map_eq_some_iff.mp hres
        cases heq
        obtain ⟨hr, ht, hx, hy, hnew⟩ := hpair r t hrt
        refine ⟨?_, ?_, fun i hi dir hdir => ?_⟩
        · rw [List.range_succ, List.map_append, List.map_singleton, hr, hrx]
          cases attach <;> rfl
        · rw [List.range_succ, List.map_append, List.map_singleton, ht, htx]
          cases attach <;> rfl
        · rcases Nat.lt_succ_iff_lt_or_eq.mp hi with hlt | rfl
          · obtain ⟨hne, hnone⟩ := hnames i hlt dir hdir
            exact ⟨hopen'.ne_none hne, hnone⟩
          · simp only [List.mem_cons, List.not_mem_nil, or_false] at hdir
            rcases hdir with rfl | rfl
            · exact ⟨hx, fun hn => hopen.none_of_none (hnew hn).1⟩
            · exact ⟨hy, fun hn => hopen.none_of_none (hnew hn).2⟩

/-! ### What the operations do -/

def newQueues (namesize : Nat) (dir devname : String) : List RingQueue :=
  (List.range 16).map fun i => {rng := ringName namesize dir i devname}

def newDev (namesize : Nat) (name : String) (attach : Option String) : Dev :=
  ⟨name, attach, newQueues namesize (dirOf false attach) (attach.getD name),
    newQueues namesize (dirOf true attach) (attach.getD name)⟩

/-- Every ring of a new device is there; those of a created one were not. -/
structure Added (namesize : Nat) (s s' : Pipes) (name : String) (attach : Option String) : Prop where
  devs : s'.devs = s.devs ++ [newDev namesize name attach]
  rings : ∀ i < 16, ∀ dir ∈ ["RX", "TX"], s'.rings (ringName namesize dir i (attach.getD name)) ≠ none ∧
    (attach = none → s.rings (ringName namesize dir i (attach.getD name)) = none)

structure Probed (namesize : Nat) (s s' : Pipes) (name : String) (attach : Option String) : Prop where
  bursts : s'.bursts = s.bursts
  kept : ∀ x ring, s.rings x = some ring → s'.rings x = some ring
  fresh : ∀ x ring, s.rings x = none → s'.rings x = some ring → ring.objs = []
  devs : s'.devs = s.devs ∨ Added namesize s s' name attach

theorem ethDevRingCreate_returns (namesize : Nat) (alloc : String → Bool) (room : Bool) (name : String)
    (attach : Option String) (s : Pipes) :
    Proc.Returns (ethDevRingCreate namesize alloc room name attach) s fun _ s' =>
      Probed namesize s s' name attach := by
  refine Proc.returns_bind (openRings_returns namesize alloc attach (attach.getD name) 16 s)
    fun res s₁ ⟨hopen, hres⟩ => ?_
  have hquiet : Probed namesize s s₁ name attach :=
    ⟨hopen.bursts, hopen.kept, hopen.fresh, .inl hopen.devs⟩
  cases res with
  | none => exact Proc.returns_pure hquiet
  | some rxtx =>
    obtain ⟨rx, tx⟩ := rxtx
    obtain ⟨rfl, rfl, hrings⟩ := hres rx tx rfl
    cases room with
    | false => exact Proc.returns_pure hquiet
    | true =>
      refine ⟨_, _, rfl, hopen.bursts, hopen.kept, hopen.fresh, .inr ⟨?_, hrings⟩⟩
      simp only [newDev, newQueues, List.map_map, hopen.devs]
      rfl

theorem probe_probed {namesize : Nat} {alloc : String → Bool} {room : Bool} {name : String}
    {attach : Option String} {s s' : Pipes}
    (h : after s (rtePmdPipeProbe namesize alloc room name attach) = some s') :
    Probed namesize s s' name attach := by
  obtain ⟨_, s₁, hrun, hprobed⟩ := ethDevRingCreate_returns namesize alloc room name attach s
  rw [after, rtePmdPipeProbe, Proc.bind_ret hrun] at h
  cases h
  exact hprobed

/-- A queue that is put back has its ring, and the device keeps all else. -/
structure Queued (s s' : Pipes) (e : Nat) (E E' : Dev) : Prop where
  dev : s.devs[e]? = some E
  devs : s'.devs = s.devs.set e E'
  name : E'.name = E.name
  attach : E'.attach = E.attach
  rx : E'.rxRingQueues.map RingQueue.rng = E.rxRingQueues.map RingQueue.rng
  tx : E'.txRingQueues.map RingQueue.rng = E.txRingQueues.map RingQueue.rng

theorem map_rng_set {queues : List RingQueue} {i : Nat} {r r' : RingQueue} (h : queues[i]? = some r)
    (hrng : r'.rng = r.rng) : (queues.set i r').map RingQueue.rng = queues.map RingQueue.rng := by
  obtain ⟨hi, rfl⟩ := List.getElem?_eq_some_iff.mp h
  rw [List.map_set, hrng]
  apply List.ext_getElem
  · simp
  · intro j hj hj'
    by_cases hij : i = j
    · subst hij
      simp
    · simp [hij]

theorem after_bind {α β : Type} {p : Proc Pipes α} {f : α → Proc Pipes β} {s s' : Pipes}
    (h : after s (p >>= f) = some s') : ∃ a s₁, p s = .ret a s₁ ∧ after s₁ (f a) = some s' := by
  unfold after at h
  cases hrun : p s with
  | ret a s₁ => exact ⟨a, s₁, rfl, by rw [Proc.bind_ret hrun] at h; exact h⟩
  | throws w s₁ => rw [Proc.bind_throws hrun] at h; cases h
  | crash c => rw [Proc.bind_crash hrun] at h; cases h

theorem devAt_ret {e : Nat} {E : Dev} {s s₁ : Pipes} (h : devAt e s = .ret E s₁) :
    s.devs[e]? = some E ∧ s₁ = s := by
  rw [devAt, Proc.get_bind] at h
  cases hE : s.devs[e]? with
  | none => rw [hE] at h; cases h
  | some E' => rw [hE] at h; cases h; exact ⟨rfl, rfl⟩

theorem queueAt_ret {queues : List RingQueue} {i : Nat} {r : RingQueue} {s s₁ : Pipes}
    (h : queueAt queues i s = .ret r s₁) : queues[i]? = some r ∧ s₁ = s := by
  rw [queueAt] at h
  cases hr : queues[i]? with
  | none => rw [hr] at h; cases h
  | some r' => rw [hr] at h; cases h; exact ⟨rfl, rfl⟩

theorem ringAt_ret {rng : String} {ring : RteRing Nat} {s s₁ : Pipes} (h : ringAt rng s = .ret ring s₁) :
    s.rings rng = some ring ∧ s₁ = s := by
  rw [ringAt, Proc.get_bind] at h
  cases hring : s.rings rng with
  | none => rw [hring] at h; cases h
  | some ring' => rw [hring] at h; cases h; exact ⟨rfl, rfl⟩

/-- A burst on queue `b.queue` of device `b.dev`, over ring `y`. -/
structure Bursted (s s' : Pipes) (b : Burst) (y : String) (E E' : Dev) (ring ring' : RteRing Nat) : Prop where
  queued : Queued s s' b.dev E E'
  ring : s.rings y = some ring
  rings : s'.rings = Function.update s.rings y (some ring')
  bursts : s'.bursts = s.bursts ++ [b]

theorem tx_bursted {e i : Nat} {bufs : List Nat} {s s' : Pipes} (h : after s (ethRingTx e i bufs) = some s') :
    ∃ E r ring, E.txRingQueues[i]? = some r ∧
      Bursted s s' ⟨true, e, i, bufs.length, bufs.take (ring.enqueueBurst bufs).1⟩ r.rng E
        (E.setTx i (r.transmitted s.mbufs bufs (ring.enqueueBurst bufs).1)) ring (ring.enqueueBurst bufs).2 := by
  obtain ⟨E, s₁, hE, h₁⟩ := after_bind h
  obtain ⟨hdev, rfl⟩ := devAt_ret hE
  obtain ⟨r, s₂, hr, h₂⟩ := after_bind h₁
  obtain ⟨hq, rfl⟩ := queueAt_ret hr
  obtain ⟨ring, s₃, hring, h₃⟩ := after_bind h₂
  obtain ⟨hrng, rfl⟩ := ringAt_ret hring
  cases h₃
  exact ⟨E, r, ring, hq, ⟨hdev, rfl, rfl, rfl, rfl, map_rng_set hq rfl⟩, hrng, rfl, rfl⟩

theorem rx_bursted {e i nbBufs : Nat} {s s' : Pipes} (h : after s (ethRingRx e i nbBufs) = some s') :
    ∃ E r ring, E.rxRingQueues[i]? = some r ∧
      Bursted s s' ⟨false, e, i, nbBufs, (ring.dequeueBurst nbBufs).1⟩ r.rng E
        (E.setRx i (r.received s.mbufs (ring.dequeueBurst nbBufs).1)) ring (ring.dequeueBurst nbBufs).2 := by
  obtain ⟨E, s₁, hE, h₁⟩ := after_bind h
  obtain ⟨hdev, rfl⟩ := devAt_ret hE
  obtain ⟨r, s₂, hr, h₂⟩ := after_bind h₁
  obtain ⟨hq, rfl⟩ := queueAt_ret hr
  obtain ⟨ring, s₃, hring, h₃⟩ := after_bind h₂
  obtain ⟨hrng, rfl⟩ := ringAt_ret hring
  cases h₃
  exact ⟨E, r, ring, hq, ⟨hdev, rfl, rfl, rfl, map_rng_set hq rfl, rfl⟩, hrng, rfl, rfl⟩

theorem setup_queued {e i : Nat} {s s' : Pipes} (h : after s (ethRxQueueSetup e i) = some s') :
    ∃ E r, E.rxRingQueues[i]? = some r ∧ Queued s s' e E (E.setRx i {r with ifIndex := BitVec.ofNat 8 e}) ∧
      s'.rings = s.rings ∧ s'.bursts = s.bursts := by
  obtain ⟨E, s₁, hE, h₁⟩ := after_bind h
  obtain ⟨hdev, rfl⟩ := devAt_ret hE
  obtain ⟨r, s₂, hr, h₂⟩ := after_bind h₁
  obtain ⟨hq, rfl⟩ := queueAt_ret hr
  cases h₂
  exact ⟨E, r, hq, ⟨hdev, rfl, rfl, rfl, map_rng_set hq rfl, rfl⟩, rfl, rfl⟩

/-! ### Wiring -/

def Dev.queues (E : Dev) (tx : Bool) : List RingQueue := if tx then E.txRingQueues else E.rxRingQueues

/-- The name its rings are made from. -/
def Dev.ringsOf (E : Dev) : String := E.attach.getD E.name

/-- Every device has its 32 rings, under the names its probe gave them. -/
structure Wired (namesize : Nat) (s : Pipes) : Prop where
  queues : ∀ (e : Nat) (E : Dev), s.devs[e]? = some E → ∀ tx, (E.queues tx).map RingQueue.rng =
    (List.range 16).map (ringName namesize (dirOf tx E.attach) · E.ringsOf)
  rings : ∀ (e : Nat) (E : Dev), s.devs[e]? = some E → ∀ i < 16, ∀ dir ∈ ["RX", "TX"],
    s.rings (ringName namesize dir i E.ringsOf) ≠ none
  born : ∀ b ∈ s.bursts, b.dev < s.devs.length

variable {namesize : Nat} {s s' : Pipes} {e : Nat} {E E' : Dev}

theorem Wired.queue (h : Wired namesize s) (hE : s.devs[e]? = some E) {tx : Bool} {i : Nat} {r : RingQueue}
    (hr : (E.queues tx)[i]? = some r) :
    i < 16 ∧ r.rng = ringName namesize (dirOf tx E.attach) i E.ringsOf := by
  have hmap := congrArg (·[i]?) (h.queues e E hE tx)
  simp only [List.getElem?_map, hr, Option.map_some] at hmap
  cases hi : (List.range 16)[i]? with
  | none => rw [hi] at hmap; cases hmap
  | some j =>
    obtain ⟨hlt, rfl⟩ := List.getElem?_eq_some_iff.mp hi
    rw [hi, List.getElem_range] at hmap
    exact ⟨by simpa using hlt, Option.some.inj hmap⟩

theorem Wired.has_queue (h : Wired namesize s) (hE : s.devs[e]? = some E) (tx : Bool) {i : Nat} (hi : i < 16) :
    ∃ r, (E.queues tx)[i]? = some r := by
  have hlen := congrArg List.length (h.queues e E hE tx)
  simp only [List.length_map, List.length_range] at hlen
  exact ⟨_, List.getElem?_eq_getElem (by omega)⟩

theorem Queued.queues (h : Queued s s' e E E') (tx : Bool) :
    (E'.queues tx).map RingQueue.rng = (E.queues tx).map RingQueue.rng := by
  cases tx
  · exact h.rx
  · exact h.tx

/-- A device after the step is one before it, up to its counters. -/
theorem Queued.before (h : Queued s s' e E E') {f : Nat} {F' : Dev} (hF : s'.devs[f]? = some F') :
    ∃ F, s.devs[f]? = some F ∧ F'.name = F.name ∧ F'.attach = F.attach ∧
      ∀ tx, (F'.queues tx).map RingQueue.rng = (F.queues tx).map RingQueue.rng := by
  rw [h.devs] at hF
  by_cases hfe : e = f
  · subst hfe
    obtain ⟨hlt, rfl⟩ := List.getElem?_eq_some_iff.mp h.dev
    rw [List.getElem?_set_self hlt] at hF
    cases hF
    exact ⟨_, h.dev, h.name, h.attach, h.queues⟩
  · rw [List.getElem?_set_ne hfe] at hF
    exact ⟨F', hF, rfl, rfl, fun _ => rfl⟩

theorem Queued.after (h : Queued s s' e E E') {f : Nat} {F : Dev} (hF : s.devs[f]? = some F) :
    ∃ F', s'.devs[f]? = some F' ∧ F'.name = F.name ∧ F'.attach = F.attach := by
  rw [h.devs]
  by_cases hfe : e = f
  · subst hfe
    rw [h.dev] at hF
    cases hF
    exact ⟨E', List.getElem?_set_self (List.getElem?_eq_some_iff.mp h.dev).1, h.name, h.attach⟩
  · exact ⟨F, by rw [List.getElem?_set_ne hfe, hF], rfl, rfl⟩

theorem Wired.queued (h : Wired namesize s) (hq : Queued s s' e E E')
    (hrings : ∀ x, s.rings x ≠ none → s'.rings x ≠ none)
    (hbursts : ∀ b ∈ s'.bursts, b ∈ s.bursts ∨ b.dev = e) : Wired namesize s' := by
  have hlen : s'.devs.length = s.devs.length := by rw [hq.devs, List.length_set]
  refine ⟨fun f F' hF' tx => ?_, fun f F' hF' i hi dir hdir => ?_, fun b hb => ?_⟩
  · obtain ⟨F, hF, hname, hattach, hqueues⟩ := hq.before hF'
    rw [hqueues, h.queues f F hF, Dev.ringsOf, Dev.ringsOf, hname, hattach]
  · obtain ⟨F, hF, hname, hattach, -⟩ := hq.before hF'
    rw [Dev.ringsOf, hname, hattach]
    exact hrings _ (h.rings f F hF i hi dir hdir)
  · rw [hlen]
    rcases hbursts b hb with hb | rfl
    · exact h.born b hb
    · exact (List.getElem?_eq_some_iff.mp hq.dev).1

/-- A device after a probe was there before, or is the new one. -/
theorem Added.mem {name : String} {attach : Option String} (h : Added namesize s s' name attach) {f : Nat}
    {F : Dev} (hF : s'.devs[f]? = some F) :
    s.devs[f]? = some F ∨ f = s.devs.length ∧ F = newDev namesize name attach := by
  rw [h.devs, List.getElem?_append] at hF
  split_ifs at hF with hlt
  · exact .inl hF
  · have hf : f = s.devs.length := by
      obtain ⟨hlt', -⟩ := List.getElem?_eq_some_iff.mp hF
      simp only [List.length_singleton] at hlt'
      omega
    subst hf
    simp only [Nat.sub_self, List.getElem?_cons_zero, Option.some.injEq] at hF
    exact .inr ⟨rfl, hF.symm⟩

theorem Wired.probed {name : String} {attach : Option String} (h : Wired namesize s)
    (hp : Probed namesize s s' name attach) : Wired namesize s' := by
  have hne (x : String) (hx : s.rings x ≠ none) : s'.rings x ≠ none := by
    obtain ⟨ring, hring⟩ := Option.ne_none_iff_exists'.mp hx
    rw [hp.kept x ring hring]
    nofun
  rcases hp.devs with hsame | hadded
  · refine ⟨?_, ?_, ?_⟩
    · rw [hsame]
      exact h.queues
    · rw [hsame]
      exact fun f F hF i hi dir hdir => hne _ (h.rings f F hF i hi dir hdir)
    · rw [hsame, hp.bursts]
      exact h.born
  · refine ⟨fun f F hF tx => ?_, fun f F hF i hi dir hdir => ?_, fun b hb => ?_⟩
    · rcases hadded.mem hF with hF | ⟨-, rfl⟩
      · exact h.queues f F hF tx
      · cases tx <;> simp [Dev.queues, newDev, newQueues, Dev.ringsOf]
    · rcases hadded.mem hF with hF | ⟨-, rfl⟩
      · exact hne _ (h.rings f F hF i hi dir hdir)
      · exact (hadded.rings i hi dir hdir).1
    · rw [hp.bursts] at hb
      rw [hadded.devs, List.length_append]
      exact Nat.lt_add_right _ (h.born b hb)

/-! ### Flows -/

/-- What was sent to a ring from queue `i` of `e` is what was received from it on queue `i` of
`f`, and what is still in it. -/
def Conserved (s : Pipes) (e f i : Nat) (x : String) : Prop :=
  ∃ ring, s.rings x = some ring ∧ moved s true e i = moved s false f i ++ ring.objs

/-- A burst puts its mbufs behind the others, or takes them from the front. -/
def Carries (b : Burst) (ring ring' : RteRing Nat) : Prop :=
  if b.tx then ring'.objs = ring.objs ++ b.mbufs else ring.objs = b.mbufs ++ ring'.objs

theorem moved_burst {b : Burst} (h : s'.bursts = s.bursts ++ [b]) (tx : Bool) (f i : Nat) :
    moved s' tx f i = moved s tx f i ++ if b.on tx f i then b.mbufs else [] := by
  rw [moved, h, List.filter_append, List.flatMap_append, moved]
  cases hon : b.on tx f i <;> simp [hon]

theorem moved_same (h : s'.bursts = s.bursts) (tx : Bool) (f i : Nat) : moved s' tx f i = moved s tx f i := by
  rw [moved, moved, h]

theorem on_iff {b : Burst} {tx : Bool} {f i : Nat} : b.on tx f i = true ↔ b.tx = tx ∧ b.dev = f ∧ b.queue = i := by
  simp [Burst.on, and_assoc]

/-- The ring's flow takes a burst in if the burst is on one of its two queues, and no other. -/
theorem Conserved.burst {b : Burst} {x y : String} {ring ring' : RteRing Nat} {f g i : Nat}
    (h : Conserved s f g i x) (hb : Bursted s s' b y E E' ring ring') (hc : Carries b ring ring')
    (hon : y = x ↔ b.on true f i = true ∨ b.on false g i = true) : Conserved s' f g i x := by
  obtain ⟨rx, hrx, hmoved⟩ := h
  unfold Conserved
  rw [hb.rings]
  by_cases hyx : y = x
  · subst hyx
    rw [hb.ring] at hrx
    cases hrx
    refine ⟨ring', Function.update_self .., ?_⟩
    rw [moved_burst hb.bursts, moved_burst hb.bursts, hmoved]
    unfold Carries at hc
    cases htx : b.tx with
    | true =>
      have htrue : b.on true f i = true := (hon.mp rfl).resolve_right fun hf => by
        rw [(on_iff.mp hf).1] at htx
        cases htx
      have hfalse : b.on false g i = false := by
        simp [Burst.on, htx]
      rw [htx, if_pos rfl] at hc
      simp [htrue, hfalse, hc]
    | false =>
      have htrue : b.on false g i = true := (hon.mp rfl).resolve_left fun hf => by
        rw [(on_iff.mp hf).1] at htx
        cases htx
      have hfalse : b.on true f i = false := by
        simp [Burst.on, htx]
      rw [htx, if_neg Bool.false_ne_true] at hc
      simp [htrue, hfalse, hc]
  · have hnone := mt hon.mpr hyx
    rw [not_or, Bool.not_eq_true, Bool.not_eq_true] at hnone
    refine ⟨rx, by rw [Function.update_of_ne (Ne.symm hyx), hrx], ?_⟩
    rw [moved_burst hb.bursts, moved_burst hb.bursts, hmoved, hnone.1, hnone.2]
    simp

theorem Conserved.same {f g i : Nat} {x : String} (h : Conserved s f g i x)
    (hrings : ∀ x ring, s.rings x = some ring → s'.rings x = some ring) (hbursts : s'.bursts = s.bursts) :
    Conserved s' f g i x := by
  obtain ⟨ring, hring, hmoved⟩ := h
  exact ⟨ring, hrings x ring hring, by rw [moved_same hbursts, moved_same hbursts, hmoved]⟩

/-- The device at `d`, if it was created, and the one at `a`, if it is attached to that one. -/
def Flowing (namesize d a : Nat) (s : Pipes) : Prop :=
  ∀ D, s.devs[d]? = some D → D.attach = none → (∀ A, s.devs[a]? = some A → A.attach = some D.name) →
    ∀ i < 16, Conserved s d a i (ringName namesize "TX" i D.name) ∧
      Conserved s a d i (ringName namesize "RX" i D.name)

theorem carries_tx (e i : Nat) (bufs : List Nat) (ring : RteRing Nat) :
    Carries ⟨true, e, i, bufs.length, bufs.take (ring.enqueueBurst bufs).1⟩ ring (ring.enqueueBurst bufs).2 := by
  show ring.objs ++ bufs.take ring.free = ring.objs ++ bufs.take (min bufs.length ring.free)
  rw [Nat.min_comm, ← List.take_eq_take_min]

theorem carries_rx (e i n : Nat) (ring : RteRing Nat) :
    Carries ⟨false, e, i, n, (ring.dequeueBurst n).1⟩ ring (ring.dequeueBurst n).2 :=
  (List.take_append_drop n ring.objs).symm

theorem ringName_eq_iff (hsize : 9 ≤ namesize) {dir dir' : String} (hdir : dir ∈ ["RX", "TX"])
    (hdir' : dir' ∈ ["RX", "TX"]) {i j : Nat} (hi : i < 16) (hj : j < 16) {devname : String} :
    ringName namesize dir i devname = ringName namesize dir' j devname ↔ dir = dir' ∧ i = j :=
  ⟨ringName_inj hsize hdir hdir' hi hj, fun ⟨hd, hij⟩ => by rw [hd, hij]⟩

theorem dirOf_mem (tx : Bool) (attach : Option String) : dirOf tx attach ∈ ["RX", "TX"] := by
  cases attach <;> cases tx <;> simp [dirOf]

theorem Wired.rngs (h : Wired namesize s) (hE : s.devs[e]? = some E) (tx : Bool) {i : Nat} (hi : i < 16) :
    ringName namesize (dirOf tx E.attach) i E.ringsOf ∈ E.rngs := by
  obtain ⟨r, hr⟩ := h.has_queue hE tx hi
  have hmem : r ∈ E.rxRingQueues ++ E.txRingQueues := by
    cases tx
    · exact List.mem_append_left _ (List.mem_of_getElem? hr)
    · exact List.mem_append_right _ (List.mem_of_getElem? hr)
  rw [← (h.queue hE hr).2]
  exact List.mem_map_of_mem hmem

section Pair
variable {d a : Nat} {D : Dev} (hsize : 9 ≤ namesize) (hw : Wired namesize s) (hD : s.devs[d]? = some D)
  (hcreate : D.attach = none) (hA : ∀ A, s.devs[a]? = some A → A.attach = some D.name)
include hsize hw hD hcreate hA

/-- Over which of the rings of `D` a burst goes. -/
theorem over_iff {b : Burst} {r : RingQueue} (hE : s.devs[b.dev]? = some E)
    (hr : (E.queues b.tx)[b.queue]? = some r)
    (hrule : b.dev = d ∨ b.dev = a ∨ ∀ r ∈ E.rngs, r ∉ D.rngs) {i : Nat} (hi : i < 16) :
    (r.rng = ringName namesize "TX" i D.name ↔ b.on true d i = true ∨ b.on false a i = true) ∧
      (r.rng = ringName namesize "RX" i D.name ↔ b.on true a i = true ∨ b.on false d i = true) := by
  have hda : d ≠ a := by
    rintro rfl
    have hself := hA D hD
    rw [hcreate] at hself
    cases hself
  have hDrings : D.ringsOf = D.name := by
    rw [Dev.ringsOf, hcreate]
    rfl
  obtain ⟨hq, hrng⟩ := hw.queue hE hr
  by_cases hd : b.dev = d
  · -- the created device
    have hED : E = D := Option.some.inj (hE.symm.trans (hd ▸ hD))
    subst hED
    rw [hrng, hDrings, hcreate, ringName_eq_iff hsize (dirOf_mem ..) (by decide) hq hi,
      ringName_eq_iff hsize (dirOf_mem ..) (by decide) hq hi]
    simp only [on_iff, hd]
    cases b.tx <;> simp [dirOf, hda]
  · by_cases ha : b.dev = a
    · -- the attached one
      have hattach := hA E (ha ▸ hE)
      have hErings : E.ringsOf = D.name := by
        rw [Dev.ringsOf, hattach]
        rfl
      rw [hrng, hErings, hattach, ringName_eq_iff hsize (dirOf_mem ..) (by decide) hq hi,
        ringName_eq_iff hsize (dirOf_mem ..) (by decide) hq hi]
      simp only [on_iff, ha]
      cases b.tx <;> simp [dirOf, Ne.symm hda]
    · -- another one, which has none of the rings
      have hapart := (hrule.resolve_left hd).resolve_left ha
      have hmem : r.rng ∈ E.rngs := by
        rw [hrng]
        exact hw.rngs hE b.tx hq
      have hnot (tx : Bool) : r.rng ≠ ringName namesize (dirOf tx none) i D.name := by
        have hin := hw.rngs hD tx hi
        rw [hDrings, hcreate] at hin
        intro heq
        exact hapart _ hmem (heq ▸ hin)
      simp only [on_iff]
      exact ⟨iff_of_false (hnot true) (by simp [hd, ha]), iff_of_false (hnot false) (by simp [hd, ha])⟩

end Pair

/-- The two devices are those of before, so what is assumed of them was so. -/
theorem Flowing.queued {d a : Nat} (h : Flowing namesize d a s) (hq : Queued s s' e E E')
    (hflow : ∀ D, s.devs[d]? = some D → D.attach = none → (∀ A, s.devs[a]? = some A → A.attach = some D.name) →
      ∀ i < 16, ∀ f g x, (f = d ∧ g = a ∧ x = ringName namesize "TX" i D.name ∨
        f = a ∧ g = d ∧ x = ringName namesize "RX" i D.name) → Conserved s f g i x → Conserved s' f g i x) :
    Flowing namesize d a s' := by
  intro D' hD' hcreate' hA' i hi
  obtain ⟨D, hD, hname, hattach, -⟩ := hq.before hD'
  have hcreate : D.attach = none := hattach ▸ hcreate'
  have hA (A : Dev) (hAt : s.devs[a]? = some A) : A.attach = some D.name := by
    obtain ⟨A', hAt', -, hattachA⟩ := hq.after hAt
    rw [← hattachA, hA' A' hAt', hname]
  obtain ⟨hto, hfrom⟩ := h D hD hcreate hA i hi
  rw [hname]
  exact ⟨hflow D hD hcreate hA i hi d a _ (.inl ⟨rfl, rfl, rfl⟩) hto,
    hflow D hD hcreate hA i hi a d _ (.inr ⟨rfl, rfl, rfl⟩) hfrom⟩

theorem Flowing.burst {d a : Nat} (hsize : 9 ≤ namesize) (hw : Wired namesize s) (h : Flowing namesize d a s)
    {b : Burst} {r : RingQueue} {ring ring' : RteRing Nat} (hb : Bursted s s' b r.rng E E' ring ring')
    (hr : (E.queues b.tx)[b.queue]? = some r) (hc : Carries b ring ring')
    (hrule : b.dev = d ∨ b.dev = a ∨ ∀ D ∈ s.devs[d]?, ∀ E ∈ s.devs[b.dev]?, ∀ r ∈ E.rngs, r ∉ D.rngs) :
    Flowing namesize d a s' := by
  apply h.queued hb.queued
  intro D hD hcreate hA i hi f g x hfgx hflow
  have hrule' : b.dev = d ∨ b.dev = a ∨ ∀ r ∈ E.rngs, r ∉ D.rngs :=
    hrule.imp_right fun hr => hr.imp_right fun hr => hr D hD E hb.queued.dev
  obtain ⟨hto, hfrom⟩ := over_iff hsize hw hD hcreate hA hb.queued.dev hr hrule' hi
  rcases hfgx with ⟨rfl, rfl, rfl⟩ | ⟨rfl, rfl, rfl⟩
  · exact hflow.burst hb hc hto
  · exact hflow.burst hb hc hfrom

theorem Wired.none_on (h : Wired namesize s) (tx : Bool) {f : Nat} (hf : s.devs.length ≤ f) (i : Nat) :
    s.bursts.filter (Burst.on tx f i) = [] := by
  apply List.filter_eq_nil_iff.mpr
  intro b hb hon
  have hborn := h.born b hb
  have hdev := (on_iff.mp hon).2.1
  omega

theorem Wired.moved_nil (h : Wired namesize s) (tx : Bool) {f : Nat} (hf : s.devs.length ≤ f) (i : Nat) :
    moved s tx f i = [] := by
  rw [moved, h.none_on tx hf, List.flatMap_nil]

theorem Wired.offered_zero (h : Wired namesize s) {f : Nat} (hf : s.devs.length ≤ f) (i : Nat) :
    offered s f i = 0 := by
  rw [offered, h.none_on true hf, List.map_nil, List.sum_nil]

theorem Flowing.probed {d a : Nat} {name : String} {attach : Option String} (hw : Wired namesize s)
    (h : Flowing namesize d a s) (hp : Probed namesize s s' name attach) : Flowing namesize d a s' := by
  rcases hp.devs with hsame | hadded
  · intro D hD hcreate hA i hi
    rw [hsame] at hD hA
    obtain ⟨hto, hfrom⟩ := h D hD hcreate hA i hi
    exact ⟨hto.same hp.kept hp.bursts, hfrom.same hp.kept hp.bursts⟩
  · intro D hD hcreate hA i hi
    have hA' (A : Dev) (hAt : s.devs[a]? = some A) : A.attach = some D.name := by
      apply hA
      rw [hadded.devs, List.getElem?_append_left (List.getElem?_eq_some_iff.mp hAt).1, hAt]
    rcases hadded.mem hD with hD | ⟨rfl, rfl⟩
    · obtain ⟨hto, hfrom⟩ := h D hD hcreate hA' i hi
      exact ⟨hto.same hp.kept hp.bursts, hfrom.same hp.kept hp.bursts⟩
    · -- a new device: its rings are new, and nobody was attached to it
      obtain rfl : attach = none := hcreate
      have hlen : s.devs.length ≤ a := by
        by_contra hlt
        have hAt := List.getElem?_eq_getElem (Nat.lt_of_not_le hlt)
        have hexists := hw.rings a _ hAt 0 (by decide) "RX" (by decide)
        rw [Dev.ringsOf, hA' _ hAt] at hexists
        exact hexists ((hadded.rings 0 (by decide) "RX" (by decide)).2 rfl)
      have hempty (f g : Nat) (hf : s.devs.length ≤ f) (hg : s.devs.length ≤ g) (dir : String)
          (hdir : dir ∈ ["RX", "TX"]) : Conserved s' f g i (ringName namesize dir i name) := by
        obtain ⟨hne, hnone⟩ := hadded.rings i hi dir hdir
        obtain ⟨ring, hring⟩ := Option.ne_none_iff_exists'.mp hne
        refine ⟨ring, hring, ?_⟩
        rw [moved_same hp.bursts, moved_same hp.bursts, hw.moved_nil true hf, hw.moved_nil false hg,
          hp.fresh _ ring (hnone rfl) hring]
        rfl
      exact ⟨hempty _ _ (Nat.le_refl _) hlen "TX" (by decide), hempty _ _ hlen (Nat.le_refl _) "RX" (by decide)⟩

/-! ### Counters -/

/-- The counters of a queue are those of its bursts. -/
def Tallied (s : Pipes) (tx : Bool) (e i : Nat) (r : RingQueue) : Prop :=
  if tx then
    r.txPkts = BitVec.ofNat 64 (moved s true e i).length ∧ r.txPkts + r.errPkts = BitVec.ofNat 64 (offered s e i)
  else r.rxPkts = BitVec.ofNat 64 (moved s false e i).length

def Counted (s : Pipes) : Prop :=
  ∀ e E, s.devs[e]? = some E → ∀ tx i r, (E.queues tx)[i]? = some r → Tallied s tx e i r

theorem offered_burst {b : Burst} (h : s'.bursts = s.bursts ++ [b]) (f i : Nat) :
    offered s' f i = offered s f i + if b.on true f i then b.offered else 0 := by
  rw [offered, h, List.filter_append, List.map_append, List.sum_append, offered]
  cases hon : b.on true f i <;> simp [hon]

theorem Tallied.other {tx : Bool} {f i : Nat} {r : RingQueue} (h : Tallied s tx f i r) {b : Burst}
    (hb : s'.bursts = s.bursts ++ [b]) (hoff : b.on tx f i = false) : Tallied s' tx f i r := by
  unfold Tallied at *
  cases tx <;> simpa [moved_burst hb, offered_burst hb, hoff] using h

theorem Tallied.same {tx : Bool} {f i : Nat} {r r' : RingQueue} (h : Tallied s tx f i r)
    (hb : s'.bursts = s.bursts) (hrx : r'.rxPkts = r.rxPkts) (htx : r'.txPkts = r.txPkts)
    (herr : r'.errPkts = r.errPkts) : Tallied s' tx f i r' := by
  unfold Tallied at *
  rw [hrx, htx, herr, moved_same hb, moved_same hb, offered, hb]
  exact h

@[simp] theorem Dev.setRx_queues (E : Dev) (i : Nat) (r : RingQueue) (tx : Bool) :
    (E.setRx i r).queues tx = if tx = false then (E.queues tx).set i r else E.queues tx := by
  cases tx <;> rfl

@[simp] theorem Dev.setTx_queues (E : Dev) (i : Nat) (r : RingQueue) (tx : Bool) :
    (E.setTx i r).queues tx = if tx = true then (E.queues tx).set i r else E.queues tx := by
  cases tx <;> rfl

/-- One queue is put back and the others keep their tallies. -/
theorem Counted.queued (h : Counted s) (hq : Queued s s' e E E') {tx : Bool} {i : Nat} {r : RingQueue}
    (hset : ∀ tx', E'.queues tx' = if tx' = tx then (E.queues tx').set i r else E.queues tx')
    (hother : ∀ tx' f j q, ¬ (tx' = tx ∧ f = e ∧ j = i) → Tallied s tx' f j q → Tallied s' tx' f j q)
    (hput : Tallied s' tx e i r) : Counted s' := by
  intro f F hF tx' j q hj
  rw [hq.devs] at hF
  by_cases hfe : e = f
  · subst hfe
    rw [List.getElem?_set_self (List.getElem?_eq_some_iff.mp hq.dev).1] at hF
    cases hF
    rw [hset] at hj
    by_cases htx : tx' = tx
    · subst htx
      rw [if_pos rfl] at hj
      by_cases hij : i = j
      · subst hij
        obtain ⟨hlt, hget⟩ := List.getElem?_eq_some_iff.mp hj
        rw [List.getElem_set_self] at hget
        exact hget ▸ hput
      · rw [List.getElem?_set_ne hij] at hj
        exact hother _ _ _ _ (fun hn => hij hn.2.2.symm) (h e E hq.dev tx' j q hj)
    · rw [if_neg htx] at hj
      exact hother _ _ _ _ (fun hn => htx hn.1) (h e E hq.dev tx' j q hj)
  · rw [List.getElem?_set_ne hfe] at hF
    exact hother _ _ _ _ (fun hn => hfe hn.2.1.symm) (h f F hF tx' j q hj)

theorem on_false {b : Burst} {tx : Bool} {f i : Nat} (h : ¬ (tx = b.tx ∧ f = b.dev ∧ i = b.queue)) :
    b.on tx f i = false := by
  rw [← Bool.not_eq_true, on_iff]
  exact fun hon => h ⟨hon.1.symm, hon.2.1.symm, hon.2.2.symm⟩

theorem Counted.tx (h : Counted s) {i : Nat} {bufs : List Nat} {r : RingQueue} {ring ring' : RteRing Nat}
    (hr : E.txRingQueues[i]? = some r)
    (hb : Bursted s s' ⟨true, e, i, bufs.length, bufs.take (ring.enqueueBurst bufs).1⟩ r.rng E
      (E.setTx i (r.transmitted s.mbufs bufs (ring.enqueueBurst bufs).1)) ring ring') : Counted s' := by
  refine h.queued hb.queued (Dev.setTx_queues E i _) (fun tx' f j q hn ht => ht.other hb.bursts (on_false hn)) ?_
  obtain ⟨htx, hoffered⟩ : Tallied s true e i r := h e E hb.queued.dev true i r hr
  have hle : (ring.enqueueBurst bufs).1 ≤ bufs.length := Nat.min_le_left _ _
  have hon : Burst.on true e i ⟨true, e, i, bufs.length, bufs.take (ring.enqueueBurst bufs).1⟩ = true :=
    on_iff.mpr ⟨rfl, rfl, rfl⟩
  show _ ∧ _
  rw [moved_burst hb.bursts, offered_burst hb.bursts, hon]
  constructor
  · show r.txPkts + _ = _
    rw [htx, if_pos rfl, List.length_append, BitVec.ofNat_add, List.length_take, Nat.min_eq_left hle]
  · show r.txPkts + _ + (r.errPkts + _) = _
    rw [if_pos rfl, BitVec.ofNat_add, ← hoffered]
    have hsplit : bufs.length = (ring.enqueueBurst bufs).1 + (bufs.length - (ring.enqueueBurst bufs).1) := by
      omega
    have hadd := congrArg (BitVec.ofNat 64) hsplit
    rw [BitVec.ofNat_add] at hadd
    rw [hadd]
    ac_rfl

theorem Counted.rx (h : Counted s) {i n : Nat} {r : RingQueue} {ring ring' : RteRing Nat}
    (hr : E.rxRingQueues[i]? = some r)
    (hb : Bursted s s' ⟨false, e, i, n, (ring.dequeueBurst n).1⟩ r.rng E
      (E.setRx i (r.received s.mbufs (ring.dequeueBurst n).1)) ring ring') : Counted s' := by
  refine h.queued hb.queued (Dev.setRx_queues E i _) (fun tx' f j q hn ht => ht.other hb.bursts (on_false hn)) ?_
  have hrx : r.rxPkts = _ := h e E hb.queued.dev false i r hr
  have hon : Burst.on false e i ⟨false, e, i, n, (ring.dequeueBurst n).1⟩ = true := on_iff.mpr ⟨rfl, rfl, rfl⟩
  show r.rxPkts + _ = _
  rw [moved_burst hb.bursts, hon, if_pos rfl, List.length_append, BitVec.ofNat_add, hrx]

theorem Counted.setup (h : Counted s) {i : Nat} {r : RingQueue} {ifIndex : BitVec 8}
    (hr : E.rxRingQueues[i]? = some r) (hq : Queued s s' e E (E.setRx i {r with ifIndex := ifIndex}))
    (hb : s'.bursts = s.bursts) : Counted s' := by
  have hown : Tallied s false e i r := h e E hq.dev false i r hr
  exact h.queued hq (Dev.setRx_queues E i _) (fun tx' f j q _ ht => ht.same hb rfl rfl rfl)
    (hown.same hb rfl rfl rfl)

theorem Counted.probed {name : String} {attach : Option String} (hw : Wired namesize s) (h : Counted s)
    (hp : Probed namesize s s' name attach) : Counted s' := by
  intro e E hE tx i r hr
  rcases hp.devs with hsame | hadded
  · rw [hsame] at hE
    exact (h e E hE tx i r hr).same hp.bursts rfl rfl rfl
  · rcases hadded.mem hE with hE | ⟨rfl, rfl⟩
    · exact (h e E hE tx i r hr).same hp.bursts rfl rfl rfl
    · have hnew : Tallied s tx s.devs.length i r := by
        have hmem := List.mem_of_getElem? hr
        unfold Tallied
        rw [hw.moved_nil true (Nat.le_refl _), hw.moved_nil false (Nat.le_refl _),
          hw.offered_zero (Nat.le_refl _)]
        cases tx <;>
          simp only [Dev.queues, newDev, newQueues, Bool.false_eq_true, if_true, if_false, List.mem_map] at hmem <;>
          obtain ⟨j, -, rfl⟩ := hmem <;> simp
      exact hnew.same hp.bursts rfl rfl rfl

/-! ### The pair of devices -/

structure Inv (namesize d a : Nat) (s : Pipes) : Prop where
  wired : Wired namesize s
  counted : Counted s
  flowing : Flowing namesize d a s

theorem inv_init (namesize d a : Nat) (mbufs : Nat → Mbuf) : Inv namesize d a {mbufs := mbufs} :=
  ⟨⟨nofun, nofun, nofun⟩, nofun, nofun⟩

theorem Bursted.wired {b : Burst} {y : String} {ring ring' : RteRing Nat} (hw : Wired namesize s)
    (hb : Bursted s s' b y E E' ring ring') : Wired namesize s' := by
  apply hw.queued hb.queued
  · intro x hx
    rw [hb.rings, Function.update_apply]
    split_ifs
    · exact Option.some_ne_none ring'
    · exact hx
  · intro c hc
    rw [hb.bursts, List.mem_append, List.mem_singleton] at hc
    exact hc.imp_right (congrArg Burst.dev)

theorem Inv.step {d a : Nat} (hsize : 9 ≤ namesize) {op : Op} (h : Inv namesize d a s) (hrule : OnPair d a s op)
    (hs : step namesize s op = some s') : Inv namesize d a s' := by
  cases op with
  | probe alloc room name attach =>
    have hp := probe_probed hs
    exact ⟨h.wired.probed hp, h.counted.probed h.wired hp, h.flowing.probed h.wired hp⟩
  | rxQueueSetup e i =>
    obtain ⟨E, r, hr, hq, hrings, hbursts⟩ := setup_queued hs
    refine ⟨h.wired.queued hq (fun x hx => hrings ▸ hx) (fun b hb => .inl (hbursts ▸ hb)),
      h.counted.setup hr hq hbursts, h.flowing.queued hq ?_⟩
    intro D hD hcreate hA j hj f g x _ hflow
    exact hflow.same (fun x ring hx => hrings ▸ hx) hbursts
  | tx e i bufs =>
    obtain ⟨-, hs⟩ := Option.ite_none_right_eq_some.mp hs
    obtain ⟨E, r, ring, hr, hb⟩ := tx_bursted hs
    exact ⟨hb.wired h.wired, h.counted.tx hr hb, h.flowing.burst hsize h.wired hb hr (carries_tx ..) hrule⟩
  | rx e i n =>
    obtain ⟨-, hs⟩ := Option.ite_none_right_eq_some.mp hs
    obtain ⟨E, r, ring, hr, hb⟩ := rx_bursted hs
    exact ⟨hb.wired h.wired, h.counted.rx hr hb, h.flowing.burst hsize h.wired hb hr (carries_rx ..) hrule⟩

/-- The queues at the two ends of a flow are over its ring, and their counters follow it. -/
theorem Conserved.connected {d a e f i : Nat} {sender receiver : Dev} {x : String} (h : Conserved s e f i x)
    (hinv : Inv namesize d a s) (hi : i < 16) (hsender : s.devs[e]? = some sender)
    (hreceiver : s.devs[f]? = some receiver)
    (hto : ringName namesize (dirOf true sender.attach) i sender.ringsOf = x)
    (hfrom : ringName namesize (dirOf false receiver.attach) i receiver.ringsOf = x) :
    Connected s e f i sender receiver := by
  obtain ⟨q, hq⟩ := hinv.wired.has_queue hsender true hi
  obtain ⟨q', hq'⟩ := hinv.wired.has_queue hreceiver false hi
  have hrng := (hinv.wired.queue hsender hq).2.trans hto
  have hrng' := (hinv.wired.queue hreceiver hq').2.trans hfrom
  obtain ⟨htx, hoffered⟩ : Tallied s true e i q := hinv.counted e sender hsender true i q hq
  have hrx : q'.rxPkts = _ := hinv.counted f receiver hreceiver false i q' hq'
  obtain ⟨ring, hring, hmoved⟩ := h
  refine ⟨q, hq, q', hq', ring, hrng ▸ hring, hrng'.trans hrng.symm, hmoved, ?_, hoffered⟩
  rw [htx, hrx, hmoved, List.length_append, BitVec.ofNat_add]

theorem connected_of_run {namesize d a i : Nat} {mbufs : Nat → Mbuf} {ops : List Op} {s : Pipes} {D A : Dev}
    (hsize : 9 ≤ namesize) (h : Runs (step namesize) (OnPair d a) {mbufs := mbufs} ops s)
    (hD : s.devs[d]? = some D) (hcreate : D.attach = none) (hA : s.devs[a]? = some A)
    (hattach : A.attach = some D.name) (hi : i < 16) :
    Connected s d a i D A ∧ Connected s a d i A D := by
  have hinv : Inv namesize d a s :=
    h.invariant (inv_init namesize d a mbufs) fun s op s' hinv hrule hs => hinv.step hsize hrule hs
  have hDrings : D.ringsOf = D.name := by
    rw [Dev.ringsOf, hcreate]
    rfl
  have hArings : A.ringsOf = D.name := by
    rw [Dev.ringsOf, hattach]
    rfl
  obtain ⟨hto, hfrom⟩ := hinv.flowing D hD hcreate (fun A' hA' => by rw [hA] at hA'; cases hA'; exact hattach) i hi
  constructor
  · apply hto.connected hinv hi hD hA
    · rw [hDrings, hcreate]
      rfl
    · rw [hArings, hattach]
      rfl
  · apply hfrom.connected hinv hi hA hD
    · rw [hArings, hattach]
      rfl
    · rw [hDrings, hcreate]
      rfl

/-- A pair on whose queues mbufs go both ways; two of those sent to device 1 stay in the ring. -/
def pairRun : List Op :=
  [.probe (fun _ => true) true "net_pipe0" none, .probe (fun _ => true) true "net_pipe1" (some "net_pipe0"),
    .rxQueueSetup 1 3, .tx 0 3 [10, 11, 12], .rx 1 3 1, .tx 1 3 [20, 21], .rx 0 3 32]

theorem connected_of_pairRun : ∃ s D A, moved s false 1 3 = [10] ∧ moved s false 0 3 = [20, 21] ∧
    Connected s 0 1 3 D A ∧ Connected s 1 0 3 A D := by
  obtain ⟨s, hs, heq⟩ := Option.map_eq_some_iff.mp (show
    (exec (step 29) {mbufs := fun _ => ⟨64, 0⟩} pairRun).map (fun s =>
      (s.devs.map fun E => (E.name, E.attach), moved s false 1 3, moved s false 0 3)) =
    some ([("net_pipe0", none), ("net_pipe1", some "net_pipe0")], [10], [20, 21]) by decide +kernel)
  simp only [Prod.mk.injEq, List.map_eq_cons_iff, List.map_eq_nil_iff] at heq
  obtain ⟨⟨D, _, hdevs, ⟨hname, hcreate⟩, A, _, rfl, ⟨-, hattach⟩, rfl⟩, hto, hfrom⟩ := heq
  have hruns : Runs (step 29) (OnPair 0 1) {mbufs := fun _ => ⟨64, 0⟩} pairRun s := by
    apply Runs.of_exec_rule _ hs
    simp [pairRun, OnPair]
  have hpair := connected_of_run (by decide) hruns (D := D) (A := A) (by rw [hdevs]; rfl) hcreate
    (by rw [hdevs]; rfl) (by rw [hattach, hname]) (show 3 < 16 by decide)
  exact ⟨s, D, A, hto, hfrom, hpair⟩

end Pipe

end Susanow
