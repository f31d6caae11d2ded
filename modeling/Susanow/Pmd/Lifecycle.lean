import Susanow.Pmd.Pipe

/-! Probing and removing pipe devices.

A device is an entry of the table of ethdevs and 32 rings. The probe opens the rings one after
the other and then takes an entry, any of which may fail; the removal gives back the entry that
is found under the name. The table and the memory belong to the environment, and are asked for
what they give and what they find. -/
namespace Susanow
namespace Pipe

/-- An entry of the table of ethdevs that is in use, of whatever driver. -/
structure Ethdev where
  portId : Nat
  name : String
  deriving DecidableEq, Repr

structure Host where
  pipes : Pipes
  ethdevs : List Ethdev

/-- What a probe is given: memory for the rings it names, for the data of the device and for its
queues, and the port of the entry that `rte_eth_dev_allocate_slank` reserves. -/
structure Env where
  alloc : String → Bool
  data : Bool
  internals : Bool
  allocate : List Ethdev → String → Option Nat

namespace Host

def onPipes {α : Type} (p : Proc Pipes α) : Proc Host α :=
  Proc.zoom Host.pipes (fun h s => {h with pipes := s}) p

/-- `eth_dev->data->port_id`, or -1. -/
def rteEthFromRings (env : Env) (name : String) (attach : Option String) (rx tx : List String) : Proc Host Int := do
  let h ← Proc.get
  if env.data = false then pure (-1)
  else if env.internals = false then pure (-1)
  else
    match env.allocate h.ethdevs name with
    | none => pure (-1)
    | some portId => do
      let _ ← onPipes (Pipe.rteEthFromRings true name attach rx tx)
      Proc.modify fun h => {h with ethdevs := h.ethdevs ++ [⟨portId, name⟩]}
      pure portId

section Probe
variable (namesize : Nat) (env : Env)

/-- A port id that is not 0 is taken for a failure. -/
def ethDevRingCreate (name : String) (attach : Option String) : Proc Host Int := do
  let opened ← onPipes (openRings namesize env.alloc attach (attach.getD name) maxRings)
  match opened with
  | none => pure (-1)
  | some (rx, tx) => do
    let ret ← rteEthFromRings env name attach rx tx
    pure (if ret ≠ 0 then -1 else 0)

/-- What is returned, and in `info` the device to attach to: `DEV_CREATE` is `none`. -/
def parseKvlist (value : Option String) : Int × Option String := (0, value)

/-- `parse_kvlist` on each value, all into one `info`. -/
def rteKvargsProcess : List (Option String) → Option String → Int × Option String
  | [], info => (0, info)
  | value :: rest, _ =>
    let (ret, info) := parseKvlist value
    if ret < 0 then (-1, info) else rteKvargsProcess rest info

/-- `kvlist` are the values of `attach` among the arguments, `none` if there are others. What
`eth_dev_ring_create` returns is not looked at. -/
def rtePmdPipeProbe (name : String) (kvlist : Option (List (Option String))) : Proc Host Int :=
  match kvlist with
  | none => do
    let _ ← ethDevRingCreate namesize env name none
    pure 0
  | some values =>
    let (ret, info) := if values.length ≠ 0 then rteKvargsProcess values none else parseKvlist none
    if ret < 0 then pure ret
    else do
      let _ ← ethDevRingCreate namesize env name info
      pure ret

end Probe

/-- `ENODEV` -/
def enodev : Int := 19

/-- The entry that `rte_eth_dev_allocated` finds is released; the rings stay. The data that
`rte_eth_from_rings` puts in place of the entry's own has no name, so it may find none. -/
def rtePmdPipeRemove (allocated : List Ethdev → String → Option Ethdev) (name : String) : Proc Host Int := do
  let h ← Proc.get
  match allocated h.ethdevs name with
  | none => pure (-enodev)
  | some ethDev => do
    Proc.set {h with ethdevs := h.ethdevs.erase ethDev}
    pure 0

/-! ### What is asked of them -/

/-- The device that a probe attaches to. -/
def attachArg (kvlist : Option (List (Option String))) : Option String := (kvlist.getD []).getLast?.join

def Registered (name : String) (h h' : Host) : Prop := ∃ portId, h'.ethdevs = h.ethdevs ++ [⟨portId, name⟩]

/-- The device has memory and an entry. -/
structure Room (env : Env) (name : String) (h : Host) : Prop where
  data : env.data = true
  internals : env.internals = true
  allocate : (env.allocate h.ethdevs name).isSome = true

instance (env : Env) (name : String) (h : Host) : Decidable (Room env name h) :=
  decidable_of_iff (env.data = true ∧ env.internals = true ∧ (env.allocate h.ethdevs name).isSome = true)
    ⟨fun ⟨h₁, h₂, h₃⟩ => ⟨h₁, h₂, h₃⟩, fun h => ⟨h.data, h.internals, h.allocate⟩⟩

/-- The probe returns 0 just when it registers, leaves the rings as they were if it does not, and
what it creates can be created again after it was removed. -/
structure MeetsLifeCycle (allocated : List Ethdev → String → Option Ethdev) (namesize : Nat) (env : Env)
    (name : String) (kvlist : Option (List (Option String))) (h : Host) : Prop where
  reports : ∀ ret h', rtePmdPipeProbe namesize env name kvlist h = .ret ret h' → (ret = 0 ↔ Registered name h h')
  restores : ∀ ret h', rtePmdPipeProbe namesize env name kvlist h = .ret ret h' → ¬Registered name h h' →
    h'.pipes.rings = h.pipes.rings
  again : ∀ ret h' ret' h₂, attachArg kvlist = none → rtePmdPipeProbe namesize env name kvlist h = .ret ret h' →
    Registered name h h' → rtePmdPipeRemove allocated name h' = .ret ret' h₂ →
    ∀ env' kvlist', (∀ rng, env'.alloc rng = true) → Room env' name h₂ → attachArg kvlist' = none →
      ∃ h₃, rtePmdPipeProbe namesize env' name kvlist' h₂ = .ret 0 h₃ ∧ Registered name h₂ h₃

/-- The probe attaches, to a device all of whose rings are there, and has room. -/
structure Attaches (namesize : Nat) (env : Env) (name peer : String) (h : Host) : Prop where
  rings : ∀ i < 16, ∀ dir ∈ ["RX", "TX"], h.pipes.rings (ringName namesize dir i peer) ≠ none
  room : Room env name h

/-! ### Opening rings -/

theorem openPair_lookup (alloc : String → Bool) (peer x y : String) (s : Pipes) :
    ∃ res, openPair alloc (some peer) x y s = .ret res s ∧
      (res.isSome = true ↔ s.rings x ≠ none ∧ s.rings y ≠ none) := by
  have hopen (created lookedUp : String) : openRing alloc (some peer) created lookedUp s =
      .ret (if (s.rings lookedUp).isSome then some lookedUp else none) s := rfl
  cases hy : s.rings y with
  | none =>
    refine ⟨none, ?_, by simp⟩
    rw [openPair, Proc.bind_ret (hopen x y), hy]
    rfl
  | some ring =>
    refine ⟨(if (s.rings x).isSome then some x else none).map fun tx => (y, tx), ?_, ?_⟩
    · rw [openPair, Proc.bind_ret (hopen x y), hy]
      rfl
    · cases hx : s.rings x with
      | none => simp
      | some ring' => simp

/-- Rings that are looked up are there or not; nothing is created. -/
theorem openRings_lookup (namesize : Nat) (alloc : String → Bool) (peer devname : String) (s : Pipes) (n : Nat) :
    ∃ res, openRings namesize alloc (some peer) devname n s = .ret res s ∧ (res.isSome = true ↔
      ∀ i < n, ∀ dir ∈ ["RX", "TX"], s.rings (ringName namesize dir i devname) ≠ none) := by
  induction n with
  | zero => exact ⟨some ([], []), rfl, iff_of_true rfl fun i hi => absurd hi (Nat.not_lt_zero i)⟩
  | succ n ih =>
    obtain ⟨res, hrun, hres⟩ := ih
    have hsucc : (∀ i < n + 1, ∀ dir ∈ ["RX", "TX"], s.rings (ringName namesize dir i devname) ≠ none) ↔
        res.isSome = true ∧ s.rings (ringName namesize "RX" n devname) ≠ none ∧
          s.rings (ringName namesize "TX" n devname) ≠ none := by
      rw [hres]
      constructor
      · exact fun h => ⟨fun i hi => h i (Nat.lt_succ_of_lt hi), h n (Nat.lt_succ_self n) "RX" (by decide),
          h n (Nat.lt_succ_self n) "TX" (by decide)⟩
      · rintro ⟨h, hrx, htx⟩ i hi dir hdir
        rcases Nat.lt_succ_iff_lt_or_eq.mp hi with hlt | rfl
        · exact h i hlt dir hdir
        · simp only [List.mem_cons, List.not_mem_nil, or_false] at hdir
          rcases hdir with rfl | rfl
          · exact hrx
          · exact htx
    cases res with
    | none => exact ⟨none, by rw [openRings, Proc.bind_ret hrun]; rfl, by rw [hsucc]; simp⟩
    | some rxtx =>
      obtain ⟨pair, hpair, hiff⟩ := openPair_lookup alloc peer (ringName namesize "RX" n devname)
        (ringName namesize "TX" n devname) s
      refine ⟨pair.map fun pair => (rxtx.1 ++ [pair.1], rxtx.2 ++ [pair.2]), ?_, ?_⟩
      · rw [openRings, Proc.bind_ret hrun]
        show (openPair alloc (some peer) _ _ >>= _) s = _
        rw [Proc.bind_ret hpair]
        rfl
      · rw [hsucc, Option.isSome_map, hiff]
        exact (and_iff_right rfl).symm

/-! ### Probing -/

theorem onPipes_ret {α : Type} {p : Proc Pipes α} {h : Host} {a : α} {s : Pipes} (hp : p h.pipes = .ret a s) :
    onPipes p h = .ret a {h with pipes := s} := by
  rw [onPipes, Proc.zoom, hp]

theorem rteKvargsProcess_eq (values : List (Option String)) (info : Option String) :
    rteKvargsProcess values info = (0, values.getLast?.getD info) := by
  induction values generalizing info with
  | nil => rfl
  | cons value rest ih =>
    have hnext : rteKvargsProcess (value :: rest) info = rteKvargsProcess rest value := rfl
    rw [hnext, ih, List.getLast?_cons]
    rfl

section Probe
variable {namesize : Nat} {env : Env} {name : String}

/-- Whatever the arguments, one call of `eth_dev_ring_create`, and 0. -/
theorem rtePmdPipeProbe_eq (kvlist : Option (List (Option String))) :
    rtePmdPipeProbe namesize env name kvlist = (do
      let _ ← ethDevRingCreate namesize env name (attachArg kvlist)
      pure 0) := by
  cases kvlist with
  | none => rfl
  | some values =>
    cases values with
    | nil => rfl
    | cons value rest =>
      have hparse := rteKvargsProcess_eq (value :: rest) none
      have harg : attachArg (some (value :: rest)) = (value :: rest).getLast?.getD none := by
        show (value :: rest).getLast?.join = _
        cases (value :: rest).getLast? <;> rfl
      rw [rtePmdPipeProbe, harg]
      simp only [hparse]
      rfl

/-- The device is added as the pipes see it, and its entry if there is room. -/
theorem rteEthFromRings_returns (env : Env) (name : String) (attach : Option String) (rx tx : List String) (h : Host) :
    ∃ ret ret' h', rteEthFromRings env name attach rx tx h = .ret ret h' ∧
      Pipe.rteEthFromRings (decide (Room env name h)) name attach rx tx h.pipes = .ret ret' h'.pipes ∧
        h'.pipes.rings = h.pipes.rings ∧ (Registered name h h' ↔ Room env name h) := by
  by_cases hroom : Room env name h
  · obtain ⟨portId, hport⟩ := Option.isSome_iff_exists.mp hroom.allocate
    refine ⟨portId, h.pipes.devs.length, {h with
      pipes := {h.pipes with devs := h.pipes.devs ++ [⟨name, attach, rx.map fun rng => {rng := rng},
        tx.map fun rng => {rng := rng}⟩]}
      ethdevs := h.ethdevs ++ [⟨portId, name⟩]}, ?_, ?_, rfl, iff_of_true ⟨portId, rfl⟩ hroom⟩
    · simp only [rteEthFromRings, Proc.get_bind, hroom.data, hroom.internals, hport]
      rfl
    · rw [decide_eq_true hroom]
      rfl
  · refine ⟨-1, -1, h, ?_, ?_, rfl, iff_of_false (fun ⟨portId, heq⟩ => by simp at heq) hroom⟩
    · rw [rteEthFromRings, Proc.get_bind, Proc.ite_run, Proc.ite_run]
      split_ifs with hdata hinternals
      · rfl
      · rfl
      · cases hport : env.allocate h.ethdevs name with
        | none => rfl
        | some portId =>
          refine absurd ⟨?_, ?_, ?_⟩ hroom
          · exact Bool.not_eq_false _ ▸ hdata
          · exact Bool.not_eq_false _ ▸ hinternals
          · rw [hport]
            rfl
    · rw [decide_eq_false hroom]
      rfl

/-- The entry does not depend on the rings. -/
theorem room_pipes {h : Host} {s : Pipes} : Room env name {h with pipes := s} ↔ Room env name h :=
  ⟨fun hroom => ⟨hroom.data, hroom.internals, hroom.allocate⟩,
    fun hroom => ⟨hroom.data, hroom.internals, hroom.allocate⟩⟩

theorem ethDevRingCreate_returns (namesize : Nat) (env : Env) (name : String) (attach : Option String) (h : Host) :
    ∃ res s ret ret' h', openRings namesize env.alloc attach (attach.getD name) maxRings h.pipes = .ret res s ∧
      ethDevRingCreate namesize env name attach h = .ret ret h' ∧
        Pipe.ethDevRingCreate namesize env.alloc (decide (Room env name h)) name attach h.pipes =
          .ret ret' h'.pipes ∧
        h'.pipes.rings = s.rings ∧ (Registered name h h' ↔ res.isSome = true ∧ Room env name h) := by
  obtain ⟨res, s, hopen, -, -⟩ := openRings_returns namesize env.alloc attach (attach.getD name) maxRings h.pipes
  have hrings := onPipes_ret (h := h) hopen
  cases res with
  | none =>
    refine ⟨none, s, -1, -1, {h with pipes := s}, hopen, ?_, ?_, rfl, iff_of_false ?_ nofun⟩
    · rw [ethDevRingCreate, Proc.bind_ret hrings]
      rfl
    · rw [Pipe.ethDevRingCreate, Proc.bind_ret hopen]
      rfl
    · rintro ⟨portId, heq⟩
      have hlen := congrArg List.length heq
      rw [List.length_append] at hlen
      exact absurd hlen (Nat.ne_of_lt (Nat.lt_succ_self _))
  | some rxtx =>
    obtain ⟨ret, ret', h', hdev, hdev', hkept, hreg⟩ := rteEthFromRings_returns env name attach rxtx.1 rxtx.2
      {h with pipes := s}
    simp only [room_pipes] at hdev' hreg
    refine ⟨some rxtx, s, if ret ≠ 0 then -1 else 0, if ret' ≠ 0 then -1 else 0, h', hopen, ?_, ?_, hkept, ?_⟩
    · rw [ethDevRingCreate, Proc.bind_ret hrings]
      show (rteEthFromRings env name attach rxtx.1 rxtx.2 >>= _) _ = _
      rw [Proc.bind_ret hdev]
      rfl
    · rw [Pipe.ethDevRingCreate, Proc.bind_ret hopen]
      show (Pipe.rteEthFromRings _ name attach rxtx.1 rxtx.2 >>= _) _ = _
      rw [Proc.bind_ret hdev']
      rfl
    · exact hreg.trans (and_iff_right rfl).symm

/-- The probe returns 0 whatever becomes of the device. -/
theorem rtePmdPipeProbe_returns (namesize : Nat) (env : Env) (name : String) (kvlist : Option (List (Option String)))
    (h : Host) :
    ∃ res s h', openRings namesize env.alloc (attachArg kvlist) ((attachArg kvlist).getD name) maxRings h.pipes =
        .ret res s ∧
      rtePmdPipeProbe namesize env name kvlist h = .ret 0 h' ∧ h'.pipes.rings = s.rings ∧
        (Registered name h h' ↔ res.isSome = true ∧ Room env name h) := by
  obtain ⟨res, s, ret, -, h', hopen, hcreate, -, hkept, hreg⟩ :=
    ethDevRingCreate_returns namesize env name (attachArg kvlist) h
  refine ⟨res, s, h', hopen, ?_, hkept, hreg⟩
  rw [rtePmdPipeProbe_eq, Proc.bind_ret hcreate]
  rfl

/-- To the pipes, a probe is one that has room or not. -/
theorem rtePmdPipeProbe_pipes (namesize : Nat) (env : Env) (name : String) (kvlist : Option (List (Option String)))
    (h : Host) :
    ∃ h', rtePmdPipeProbe namesize env name kvlist h = .ret 0 h' ∧
      Pipe.rtePmdPipeProbe namesize env.alloc (decide (Room env name h)) name (attachArg kvlist) h.pipes =
        .ret 0 h'.pipes := by
  obtain ⟨-, -, ret, ret', h', -, hcreate, hpipes, -, -⟩ :=
    ethDevRingCreate_returns namesize env name (attachArg kvlist) h
  refine ⟨h', ?_, ?_⟩
  · rw [rtePmdPipeProbe_eq, Proc.bind_ret hcreate]
    rfl
  · rw [Pipe.rtePmdPipeProbe, Proc.bind_ret hpipes]
    rfl

/-- Whether the entry is found or not, the rings stay. -/
theorem rtePmdPipeRemove_pipes (allocated : List Ethdev → String → Option Ethdev) (name : String) (h : Host) :
    ∃ ret h₂, rtePmdPipeRemove allocated name h = .ret ret h₂ ∧ h₂.pipes = h.pipes := by
  rw [rtePmdPipeRemove, Proc.get_bind]
  cases allocated h.ethdevs name with
  | none => exact ⟨-enodev, h, rfl, rfl⟩
  | some ethDev => exact ⟨0, {h with ethdevs := h.ethdevs.erase ethDev}, rfl, rfl⟩

/-- A probe that attaches, and one that creates, when it registers. -/
theorem registered_iff_attaches {kvlist : Option (List (Option String))} {peer : String} {h h' : Host} {ret : Int}
    (harg : attachArg kvlist = some peer) (hrun : rtePmdPipeProbe namesize env name kvlist h = .ret ret h') :
    h'.pipes.rings = h.pipes.rings ∧ (Registered name h h' ↔ Attaches namesize env name peer h) := by
  obtain ⟨res, s, h₁, hopen, hprobe, hkept, hreg⟩ := rtePmdPipeProbe_returns namesize env name kvlist h
  cases hprobe.symm.trans hrun
  rw [harg] at hopen
  obtain ⟨res', hopen', hres⟩ := openRings_lookup namesize env.alloc peer peer h.pipes maxRings
  cases hopen'.symm.trans hopen
  refine ⟨hkept, hreg.trans ?_⟩
  rw [hres]
  exact ⟨fun ⟨hrings, hroom⟩ => ⟨hrings, hroom⟩, fun hatt => ⟨hatt.rings, hatt.room⟩⟩

theorem created_of_registered {kvlist : Option (List (Option String))} {h h' : Host} {ret : Int}
    (harg : attachArg kvlist = none) (hrun : rtePmdPipeProbe namesize env name kvlist h = .ret ret h')
    (hreg' : Registered name h h') :
    h.pipes.rings (ringName namesize "RX" 0 name) = none ∧ h'.pipes.rings (ringName namesize "RX" 0 name) ≠ none := by
  obtain ⟨res, s, h₁, hopen, hprobe, hkept, hreg⟩ := rtePmdPipeProbe_returns namesize env name kvlist h
  cases hprobe.symm.trans hrun
  rw [harg] at hopen
  obtain ⟨res', s', hopen', -, hnames⟩ := openRings_returns namesize env.alloc none name maxRings h.pipes
  cases hopen'.symm.trans hopen
  obtain ⟨⟨rx, tx⟩, rfl⟩ := Option.isSome_iff_exists.mp (hreg.mp hreg').1
  obtain ⟨hne, hnew⟩ := (hnames rx tx rfl).2.2 0 (by decide) "RX" (by decide)
  rw [hkept]
  exact ⟨hnew rfl, hne⟩

/-- What was created and removed is not created again. -/
theorem not_again {kvlist kvlist' : Option (List (Option String))} {env' : Env} {h h' h₂ h₃ : Host} {ret ret' : Int}
    (harg : attachArg kvlist = none) (harg' : attachArg kvlist' = none)
    (hrun : rtePmdPipeProbe namesize env name kvlist h = .ret ret h') (hreg : Registered name h h')
    (hkept : h₂.pipes = h'.pipes) (hrun' : rtePmdPipeProbe namesize env' name kvlist' h₂ = .ret ret' h₃) :
    ¬Registered name h₂ h₃ := by
  intro hreg'
  have hthere := (created_of_registered harg hrun hreg).2
  have hgone := (created_of_registered harg' hrun' hreg').1
  rw [hkept] at hgone
  exact hthere hgone

/-- However much there is for the second probe, the rings of the first are in its way. -/
theorem not_meetsLifeCycle_of_created {allocated : List Ethdev → String → Option Ethdev}
    {kvlist : Option (List (Option String))} {h h' : Host} {ret : Int} (harg : attachArg kvlist = none)
    (hrun : rtePmdPipeProbe namesize env name kvlist h = .ret ret h') (hreg : Registered name h h') :
    ¬MeetsLifeCycle allocated namesize env name kvlist h := by
  intro hmeets
  obtain ⟨ret', h₂, hremove, hkept⟩ := rtePmdPipeRemove_pipes allocated name h'
  have hroom : Room ⟨fun _ => true, true, true, fun _ _ => some 0⟩ name h₂ := ⟨rfl, rfl, rfl⟩
  obtain ⟨h₃, hrun', hreg'⟩ := hmeets.again ret h' ret' h₂ harg hrun hreg hremove _ none (fun _ => rfl) hroom rfl
  exact not_again harg rfl hrun hreg hkept hrun' hreg'

/-- **The life cycle is as it should be only for devices that are attached**, and for these when
nothing fails: every other failure is reported as success, and what was created once cannot be
created again. -/
theorem meetsLifeCycle_iff (allocated : List Ethdev → String → Option Ethdev) (namesize : Nat) (env : Env)
    (name : String) (kvlist : Option (List (Option String))) (h : Host) :
    MeetsLifeCycle allocated namesize env name kvlist h ↔
      ∃ peer, attachArg kvlist = some peer ∧ Attaches namesize env name peer h := by
  obtain ⟨res, s, h', hopen, hrun, -, -⟩ := rtePmdPipeProbe_returns namesize env name kvlist h
  constructor
  · intro hmeets
    have hreg : Registered name h h' := (hmeets.reports 0 h' hrun).mp rfl
    cases harg : attachArg kvlist with
    | some peer => exact ⟨peer, rfl, (registered_iff_attaches harg hrun).2.mp hreg⟩
    | none => exact absurd hmeets (not_meetsLifeCycle_of_created harg hrun hreg)
  · rintro ⟨peer, harg, hatt⟩
    refine ⟨fun ret h₁ hrun₁ => ?_, fun ret h₁ hrun₁ _ => (registered_iff_attaches harg hrun₁).1,
      fun _ _ _ _ hnone => ?_⟩
    · have hreg := (registered_iff_attaches harg hrun₁).2.mpr hatt
      cases hrun.symm.trans hrun₁
      exact iff_of_true rfl hreg
    · rw [harg] at hnone
      cases hnone

end Probe

/-! ### A name that is taken for good -/

/-- An entry of a table of 32, unless the name is in use. -/
def firstFree (table : List Ethdev) (name : String) : Option Nat :=
  if table.any (·.name = name) then none
  else (List.range 32).find? fun portId => table.all (·.portId ≠ portId)

/-- Nothing is short. -/
def plenty : Env := ⟨fun _ => true, true, true, firstFree⟩

def bare : Host := ⟨{mbufs := fun _ => ⟨0, 0⟩}, []⟩

/-- The entry that was reserved under the name. -/
def reserved (table : List Ethdev) (name : String) : Option Ethdev := table.find? (·.name = name)

/-- The second probe returns 0, and there is no device; it would be so whatever entry was found. -/
theorem not_meetsLifeCycle :
    ∃ h' h₂ h₃, (rtePmdPipeProbe 29 plenty "net_pipe0" none bare = .ret 0 h' ∧ h'.ethdevs = [⟨0, "net_pipe0"⟩]) ∧
      (rtePmdPipeRemove reserved "net_pipe0" h' = .ret 0 h₂ ∧ h₂.ethdevs = []) ∧
      (rtePmdPipeProbe 29 plenty "net_pipe0" none h₂ = .ret 0 h₃ ∧ h₃.ethdevs = []) ∧
      ∀ allocated, ¬MeetsLifeCycle allocated 29 plenty "net_pipe0" none bare := by
  obtain ⟨⟨ret, h'⟩, hrun, hrest⟩ := Option.bind_eq_some_iff.mp (show
    (rtePmdPipeProbe 29 plenty "net_pipe0" none bare).ret?.bind (fun r =>
      (rtePmdPipeRemove reserved "net_pipe0" r.2).ret?.bind fun r' =>
        (rtePmdPipeProbe 29 plenty "net_pipe0" none r'.2).ret?.map fun r'' =>
          ((r.1, r.2.ethdevs), (r'.1, r'.2.ethdevs), r''.1, r''.2.ethdevs)) =
      some ((0, [⟨0, "net_pipe0"⟩]), (0, []), 0, []) by decide +kernel)
  obtain ⟨⟨ret', h₂⟩, hremove, hlast⟩ := Option.bind_eq_some_iff.mp hrest
  obtain ⟨⟨ret'', h₃⟩, hagain, heq⟩ := Option.map_eq_some_iff.mp hlast
  simp only [Prod.mk.injEq] at heq
  obtain ⟨⟨rfl, hdevs⟩, ⟨rfl, hdevs₂⟩, rfl, hdevs₃⟩ := heq
  have hrun := Outcome.eq_ret_of_ret? hrun
  exact ⟨h', h₂, h₃, ⟨hrun, hdevs⟩, ⟨Outcome.eq_ret_of_ret? hremove, hdevs₂⟩,
    ⟨Outcome.eq_ret_of_ret? hagain, hdevs₃⟩, fun _ => not_meetsLifeCycle_of_created rfl hrun ⟨0, hdevs⟩⟩

end Host

end Pipe

end Susanow
