import Susanow.Nfvi.State
import Susanow.Vnfs.Burst

/-! The loop of a worker that polls every port.

`deploy_impl` of most blocks receives a burst from each port in turn, as long as the flag
is set, and differs in how the burst is treated. -/
namespace Susanow
open Wire

/-- `at`, which throws. -/
def orThrow {σ α : Type} (what : String) : Option α → Proc σ α
  | none => Proc.throw what
  | some a => pure a

section Polling
variable {α : Type}

/-- The loop's body for port `pid`: the burst is treated with the access id held for the
opposite port. -/
def serve (treat : Nat → Nat → List Nat → Proc (Wire α) Unit) (b : Block) (vcoreId pid : Nat) :
    Proc (Wire α) Unit := do
  let rxaid ← orThrow "vector::at" (b.getLcorePortRxaid vcoreId pid)
  let txaid ← orThrow "vector::at" (b.getLcorePortTxaid vcoreId (pid ^^^ 1))
  let mbufs ← rxBurst pid rxaid 32
  if mbufs.length = 0 then pure ()
  else treat pid txaid mbufs

/-- `while (running)`: the flag was still set `rounds` times. -/
def pollEveryPort (treat : Nat → Nat → List Nat → Proc (Wire α) Unit) (b : Block)
    (nPorts lcoreId rounds : Nat) : Proc (Wire α) Unit := do
  let vcoreId ← orThrow "vnf_impl::get_vlcore_id" (b.getVlcoreId lcoreId)
  Proc.forRange (fun _ => Proc.forRange (fun pid => serve treat b vcoreId pid) nPorts) rounds

/-- Both ports have an entry in the tables of a vcore of a VNF with two ports. -/
theorem entry_of_lt_two {accs : List Nat} (hlen : accs.length = 2) {pid : Nat} (hpid : pid < 2) :
    ∃ aid, accs[pid]? = some aid ∧ pid ^^^ 1 < 2 := by
  refine ⟨accs[pid], List.getElem?_eq_getElem (by omega), ?_⟩
  obtain rfl | rfl : pid = 0 ∨ pid = 1 := by omega
  · decide
  · decide

variable {treat : Nat → Nat → List Nat → Proc (Wire α) Unit} {b : Block} {vc : Vcore} {i lcoreId : Nat}

/-- The access ids are the vcore's own. -/
theorem serve_eq (hvc : b.vcores[i]? = some vc) {pid rxaid txaid : Nat}
    (hrx : vc.portRxAcc[pid]? = some rxaid) (htx : vc.portTxAcc[pid ^^^ 1]? = some txaid) :
    serve treat b i pid = rxBurst pid rxaid 32 >>= fun mbufs =>
      if mbufs.length = 0 then pure () else treat pid txaid mbufs := by
  have hget : b.getLcorePortRxaid i pid = some rxaid := by simp [Block.getLcorePortRxaid, hvc, hrx]
  have hget' : b.getLcorePortTxaid i (pid ^^^ 1) = some txaid := by simp [Block.getLcorePortTxaid, hvc, htx]
  rw [serve, hget, hget']
  rfl

/-- The loop rule: `I k` holds when `k` bursts have been treated. -/
theorem pollEveryPort_returns (hid : b.getVlcoreId lcoreId = some i) (hvc : b.vcores[i]? = some vc)
    (hrx : vc.portRxAcc.length = 2) (htx : vc.portTxAcc.length = 2) (I : Nat → Wire α → Prop)
    (hserve : ∀ pid rxaid txaid k w, vc.portRxAcc[pid]? = some rxaid → vc.portTxAcc[pid ^^^ 1]? = some txaid →
      I k w → Proc.Returns (rxBurst pid rxaid 32 >>= fun mbufs =>
        if mbufs.length = 0 then pure () else treat pid txaid mbufs) w fun _ => I (k + 1))
    {w : Wire α} (hw : I 0 w) (rounds : Nat) :
    Proc.Returns (pollEveryPort treat b 2 lcoreId rounds) w fun _ => I (rounds * 2) := by
  rw [pollEveryPort, hid]
  refine Proc.returns_forRange (fun k => I (k * 2)) (by simpa using hw) fun k hk w hw => ?_
  have hround := Proc.returns_forRange (f := fun pid => serve treat b i pid) (n := 2)
    (fun pid => I (k * 2 + pid)) hw fun pid hpid w hw => by
      obtain ⟨rxaid, hrxaid, hopp⟩ := entry_of_lt_two hrx hpid
      obtain ⟨txaid, htxaid, -⟩ := entry_of_lt_two htx hopp
      rw [serve_eq hvc hrxaid htxaid]
      exact hserve pid rxaid txaid _ w hrxaid htxaid hw
  rwa [Nat.succ_mul]

/-! ### Ownership -/

section Balance
open Proc (Preserves within_bind within_pure within_ite within_throw within_forRange)

theorem preserves_orThrow {I : Wire α → Prop} {β : Type} (what : String) (x : Option β) :
    Preserves I (orThrow what x : Proc (Wire α) β) := by
  cases x with
  | none => exact within_throw _
  | some x => exact within_pure _

theorem preserves_pollEveryPort (htreat : ∀ pid txaid mbufs, Preserves Balanced (treat pid txaid mbufs))
    (b : Block) (nPorts lcoreId rounds : Nat) :
    Preserves Balanced (pollEveryPort treat b nPorts lcoreId rounds) := by
  refine within_bind (preserves_orThrow _ _) fun i => within_forRange fun _ => within_forRange fun pid => ?_
  refine within_bind (preserves_orThrow _ _) fun rxaid => within_bind (preserves_orThrow _ _) fun txaid => ?_
  exact within_bind (preserves_rxBurst _ _ _) fun mbufs => within_ite (within_pure _) (htreat _ _ _)

end Balance

/-- Between two bursts nothing is owned. -/
structure Idle (arrivals : List (List α)) (k : Nat) (w : Wire α) : Prop where
  held : w.held = []
  left : w.arrivals = arrivals.drop k

theorem burst_disposed {ok : List α → Prop} {pid rxaid txaid k : Nat} {arrivals : List (List α)} {w : Wire α}
    (htreat : ∀ {mbufs : List Nat} {burst : List α} {w : Wire α}, Holds mbufs burst w → ok burst →
      Proc.Returns (treat pid txaid mbufs) w fun _ w' => ∃ acts, Disposes mbufs w w' acts)
    (hok : ∀ burst ∈ arrivals, ok (burst.take 32)) (hw : Idle arrivals k w) :
    Proc.Returns (rxBurst pid rxaid 32 >>= fun mbufs =>
      if mbufs.length = 0 then pure () else treat pid txaid mbufs) w fun _ => Idle arrivals (k + 1) := by
  refine Proc.returns_bind (rxBurst_holds hw.held) fun mbufs w' ⟨hholds, hleft⟩ => ?_
  have hleft' : w'.arrivals = arrivals.drop (k + 1) := by
    rw [hleft, hw.left, List.tail_drop]
  split_ifs with hlen
  · exact Proc.returns_pure ⟨by rw [hholds.held, List.length_eq_zero_iff.mp hlen], hleft'⟩
  · -- something arrived: it is one of the bursts
    have hmem : w.arrivals.headD [] ∈ arrivals := by
      cases harr : w.arrivals with
      | nil =>
        have hempty := hholds.length
        rw [harr] at hempty
        exact absurd hempty hlen
      | cons burst rest =>
        exact List.mem_of_mem_drop (i := k) (by rw [← hw.left, harr]; exact List.mem_cons_self)
    refine (htreat hholds (hok _ hmem)).weaken fun _ w'' ⟨acts, hdisp⟩ => ?_
    exact ⟨hdisp.held, hdisp.arrivals.trans hleft'⟩

/-- A worker that disposes of the bursts it is given, when they are `ok`, disposes of every
mbuf it ever receives. -/
theorem pollEveryPort_disposes (hid : b.getVlcoreId lcoreId = some i) (hvc : b.vcores[i]? = some vc)
    (hrx : vc.portRxAcc.length = 2) (htx : vc.portTxAcc.length = 2) (ok : List α → Prop)
    (hbal : ∀ pid txaid mbufs, Proc.Preserves Balanced (treat pid txaid mbufs))
    (htreat : ∀ pid txaid {mbufs : List Nat} {burst : List α} {w : Wire α}, Holds mbufs burst w → ok burst →
      Proc.Returns (treat pid txaid mbufs) w fun _ w' => ∃ acts, Disposes mbufs w w' acts)
    {arrivals : List (List α)} (hok : ∀ burst ∈ arrivals, ok (burst.take 32)) (outcomes : List Nat)
    (rounds : Nat) :
    Proc.Returns (pollEveryPort treat b 2 lcoreId rounds)
      ({arrivals := arrivals, outcomes := outcomes} : Wire α) fun _ w =>
        w.arrivals = arrivals.drop (rounds * 2) ∧ ∀ m ∈ w.received, w.gone.count m = 1 := by
  have hloop := pollEveryPort_returns hid hvc hrx htx (Idle arrivals)
    (fun pid _ txaid _ _ _ _ => burst_disposed (htreat pid txaid) hok)
    (w := {arrivals := arrivals, outcomes := outcomes}) ⟨rfl, rfl⟩ rounds
  refine (hloop.preserves (preserves_pollEveryPort hbal b 2 lcoreId rounds)
    (balanced_start arrivals outcomes)).weaken fun _ w ⟨hidle, hbal⟩ => ?_
  exact ⟨hidle.left, fun m hm => hbal.disposed_once hidle.held hm⟩

end Polling

end Susanow
