import Mathlib.Data.UInt
import Mdfh.Library.Handles
import Mdfh.Library.Transition

/-!
# Sockets own their descriptors

A socket object closes its descriptor when it is destroyed, and can be moved but not copied.
The objects of the four transport classes are set up by functions that leave early when a
step fails. The kernel gives out any descriptor that is not open, so it may be one that was
closed before.

## Main definitions

* `Socket`, `TcpServer`, `TcpClient`, `UdpSender`, `UdpReceiver` — the classes.
* `Process` — the objects of a process and its descriptors.

## Main results

* `Process.Inv.step` — every operation keeps each descriptor with one owner.
* `Process.descriptors_owned` — no double close and no leak in any run.
-/

namespace Mdfh.Net

open Library

/-! ## The kernel -/

/-- The open descriptors of the process. -/
structure Kernel where
  fds : Finset Int := ∅
  /-- Ghost: how often `close` was called for a descriptor that was not open. -/
  badCloses : Nat := 0

namespace Kernel

/-- A call that returns a new descriptor, or a negative number for an error. -/
def opened (k : Kernel) (fd : Int) : Kernel :=
  if fd < 0 then k else { k with fds := insert fd k.fds }

def close (k : Kernel) (fd : Int) : Kernel :=
  if fd ∈ k.fds then { k with fds := k.fds.erase fd } else { k with badCloses := k.badCloses + 1 }

end Kernel

/-! ## Sockets -/

structure Socket where
  fd : Int := -1
  deriving DecidableEq

namespace Socket

def valid (s : Socket) : Bool := s.fd ≥ 0

def close (k : Kernel) (s : Socket) : Kernel × Socket :=
  if s.fd ≥ 0 then (k.close s.fd, { fd := -1 }) else (k, s)

def release (s : Socket) : Int × Socket := (s.fd, { fd := -1 })

/-- The move constructor: the new socket, and what is left of the old one. -/
def moveConstruct (o : Socket) : Socket × Socket := ({ fd := o.fd }, { fd := -1 })

/-- The move assignment between different objects. -/
def moveAssign (k : Kernel) (s o : Socket) : Kernel × Socket × Socket :=
  let (k, _) := s.close k
  (k, { fd := o.fd }, { fd := -1 })

end Socket

/-! ## The transport classes -/

/-- What the functions below share: the new descriptor is wrapped, and moved to its place if
the calls that prepare it succeed. The wrapper is destroyed at the end in any case. -/
def setUp (k : Kernel) (sock : Socket) (fd : Int) (prepared : Bool) : Kernel × Socket × Bool :=
  let k := k.opened fd
  if fd < 0 then (k, sock, false)
  else
    let s : Socket := { fd }
    if !prepared then ((s.close k).1, sock, false)
    else
      let (k, sock, s) := sock.moveAssign k s
      ((s.close k).1, sock, true)

/-- The object with its new socket, or as it was. -/
def install {α : Type} (x : α) (withSock : Socket → α) (r : Kernel × Socket × Bool) :
    Kernel × α × Bool :=
  (r.1, if r.2.2 then withSock r.2.1 else x, r.2.2)

structure TcpServer where
  /-- The source's `listen_`. -/
  sock : Socket := {}
  port : UInt16 := 0

structure TcpClient where
  sock : Socket := {}

structure UdpSender where
  sock : Socket := {}
  /-- In network byte order, as is the port. -/
  dstAddr : UInt32 := 0
  dstPort : UInt16 := 0

structure UdpReceiver where
  sock : Socket := {}
  port : UInt16 := 0

/-- The bytes of a port in network order. -/
def htons (port : UInt16) : UInt16 := port <<< 8 ||| port >>> 8

/-- The kernel's answers are the descriptor, the results of `bind` and `listen`, and the port
that the socket is bound to, if `getsockname` succeeds. -/
def TcpServer.listen (k : Kernel) (server : TcpServer) (fd bindResult listenResult : Int)
    (bound : Option UInt16) : Kernel × TcpServer × Bool :=
  install server (fun sock => { sock, port := bound.getD 0 })
    (setUp k server.sock fd (bindResult = 0 ∧ listenResult = 0))

def TcpServer.accept (k : Kernel) (fd : Int) : Kernel × Option Socket :=
  let k := k.opened fd
  if fd < 0 then (k, none) else (k, some { fd })

def TcpClient.connect (k : Kernel) (client : TcpClient) (fd ptonResult connectResult : Int) :
    Kernel × TcpClient × Bool :=
  install client (fun sock => { sock })
    (setUp k client.sock fd (ptonResult = 1 ∧ connectResult = 0))

/-- The source's `open`; `addr` is what `inet_pton` makes of the host, in network byte order. -/
def UdpSender.openSocket (k : Kernel) (sender : UdpSender) (port : UInt16) (fd ptonResult : Int)
    (addr : UInt32) : Kernel × UdpSender × Bool :=
  install sender (fun sock => { sock, dstAddr := addr, dstPort := htons port })
    (setUp k sender.sock fd (ptonResult = 1))

def UdpReceiver.bind (k : Kernel) (receiver : UdpReceiver) (fd bindResult : Int)
    (bound : Option UInt16) : Kernel × UdpReceiver × Bool :=
  install receiver (fun sock => { sock, port := bound.getD 0 })
    (setUp k receiver.sock fd (bindResult = 0))

/-! ## The objects of a process -/

inductive Object where
  | socket (s : Socket)
  | server (x : TcpServer)
  | client (x : TcpClient)
  | sender (x : UdpSender)
  | receiver (x : UdpReceiver)

namespace Object

/-- The socket that an object is or has. -/
def sock : Object → Socket
  | socket s => s
  | server x => x.sock
  | client x => x.sock
  | sender x => x.sock
  | receiver x => x.sock

def setSock (s : Socket) : Object → Object
  | socket _ => socket s
  | server x => server { x with sock := s }
  | client x => client { x with sock := s }
  | sender x => sender { x with sock := s }
  | receiver x => receiver { x with sock := s }

@[simp] theorem sock_setSock (s : Socket) (x : Object) : (x.setSock s).sock = s := by
  cases x <;> rfl

/-- The first object after the second was moved to it, where `s` is its socket then. The socket
of a client can be moved by itself. -/
def takeFrom : Object → Object → Socket → Option Object
  | server _, server x, s => some (server { x with sock := s })
  | sender _, sender x, s => some (sender { x with sock := s })
  | receiver _, receiver x, s => some (receiver { x with sock := s })
  | client _, client _, s => some (client { sock := s })
  | client _, socket _, s => some (client { sock := s })
  | socket _, client _, s => some (socket s)
  | socket _, socket _, s => some (socket s)
  | _, _, _ => none

theorem sock_of_takeFrom {x y z : Object} {s : Socket} (h : y.takeFrom x s = some z) :
    z.sock = s := by
  unfold takeFrom at h
  split at h <;> cases h <;> rfl

end Object

structure Process where
  kernel : Kernel := {}
  /-- The objects that are alive, by their places in memory. -/
  objects : Nat → Option Object := fun _ => none
  /-- Ghost: the descriptors that `release` has given away and nobody has closed. -/
  released : Finset Int := ∅

/-- An operation with the kernel's answers; numbers that are not named otherwise are places. -/
inductive Action where
  /-- A default constructor. -/
  | construct (o : Nat) (x : Object)
  /-- The constructor from a descriptor that had been given away. -/
  | wrap (o : Nat) (fd : Int)
  | listen (o : Nat) (fd bindResult listenResult : Int) (bound : Option UInt16)
  | accept (o conn : Nat) (fd : Int)
  | connect (o : Nat) (fd ptonResult connectResult : Int)
  | openSocket (o : Nat) (port : UInt16) (fd ptonResult : Int) (addr : UInt32)
  | bind (o : Nat) (fd bindResult : Int) (bound : Option UInt16)
  | moveConstruct (src dst : Nat)
  | moveAssign (src dst : Nat)
  | close (o : Nat)
  | release (o : Nat)
  | destroy (o : Nat)
  /-- A call of the kernel's `close` for a descriptor that had been given away. -/
  | closeReleased (fd : Int)

namespace Process

def store (p : Process) (k : Kernel) (o : Nat) (x : Object) : Process :=
  { p with kernel := k, objects := Function.update p.objects o (some x) }

def erase (p : Process) (k : Kernel) (o : Nat) : Process :=
  { p with kernel := k, objects := Function.update p.objects o none }

/-- A descriptor that the kernel may return: it is not open yet, or it stands for an error. -/
def Fresh (p : Process) (fd : Int) : Prop := fd < 0 ∨ fd ∉ p.kernel.fds

instance (p : Process) (fd : Int) : Decidable (p.Fresh fd) := inferInstanceAs (Decidable (_ ∨ _))

def step (p : Process) : Action → Option Process
  | .construct o x =>
    if p.objects o = none ∧ x.sock = {} then some (p.store p.kernel o x) else none
  | .wrap o fd =>
    if p.objects o = none ∧ fd ∈ p.released then
      some { p.store p.kernel o (.socket { fd }) with released := p.released.erase fd }
    else none
  | .listen o fd bindResult listenResult bound =>
    match p.objects o with
    | some (.server x) =>
      if p.Fresh fd then
        let (k, x, _) := x.listen p.kernel fd bindResult listenResult bound
        some (p.store k o (.server x))
      else none
    | _ => none
  | .accept o conn fd =>
    match p.objects o, p.objects conn with
    | some (.server _), none =>
      if p.Fresh fd then
        let (k, s) := TcpServer.accept p.kernel fd
        match s with
        | some s => some (p.store k conn (.socket s))
        | none => some { p with kernel := k }
      else none
    | _, _ => none
  | .connect o fd ptonResult connectResult =>
    match p.objects o with
    | some (.client x) =>
      if p.Fresh fd then
        let (k, x, _) := x.connect p.kernel fd ptonResult connectResult
        some (p.store k o (.client x))
      else none
    | _ => none
  | .openSocket o port fd ptonResult addr =>
    match p.objects o with
    | some (.sender x) =>
      if p.Fresh fd then
        let (k, x, _) := x.openSocket p.kernel port fd ptonResult addr
        some (p.store k o (.sender x))
      else none
    | _ => none
  | .bind o fd bindResult bound =>
    match p.objects o with
    | some (.receiver x) =>
      if p.Fresh fd then
        let (k, x, _) := x.bind p.kernel fd bindResult bound
        some (p.store k o (.receiver x))
      else none
    | _ => none
  | .moveConstruct src dst =>
    match p.objects src, p.objects dst with
    | some x, none =>
      let (s, o) := x.sock.moveConstruct
      some ((p.store p.kernel src (x.setSock o)).store p.kernel dst (x.setSock s))
    | _, _ => none
  | .moveAssign src dst =>
    match p.objects src, p.objects dst with
    | some x, some y =>
      -- An assignment to itself does nothing.
      if src = dst then some p
      else
        let (k, s, o) := y.sock.moveAssign p.kernel x.sock
        (y.takeFrom x s).map fun y => (p.store k src (x.setSock o)).store k dst y
    | _, _ => none
  | .close o => do
    let x ← p.objects o
    let (k, s) := x.sock.close p.kernel
    return p.store k o (x.setSock s)
  | .release o => do
    let x ← p.objects o
    let (fd, s) := x.sock.release
    let released := if fd ≥ 0 then insert fd p.released else p.released
    return { p.store p.kernel o (x.setSock s) with released }
  | .destroy o => do
    let x ← p.objects o
    let (k, _) := x.sock.close p.kernel
    return p.erase k o
  | .closeReleased fd =>
    if fd ∈ p.released then
      some { p with kernel := p.kernel.close fd, released := p.released.erase fd }
    else none

/-- The operations of one process. -/
def system : System Process Action where
  start := {}
  step := step

end Process

/-! ## Ownership -/

/-- What a socket owns. -/
def Socket.handle (s : Socket) : Option Int := if s.valid then some s.fd else none

/-- The descriptor that the object at a place owns. -/
def Process.held (p : Process) (o : Nat) : Option Int := (p.objects o).bind fun x => x.sock.handle

/-- Every open descriptor has one owner or was given away, and no `close` has failed. -/
structure Sound (k : Kernel) (held : Nat → Option Int) (released : Finset Int) : Prop where
  owned : Owned k.fds held released
  badCloses : k.badCloses = 0
  nonneg : ∀ fd ∈ k.fds, 0 ≤ fd

theorem Socket.handle_of_nonneg {s : Socket} (h : 0 ≤ s.fd) : s.handle = some s.fd :=
  if_pos (decide_eq_true h)

theorem Socket.handle_of_neg {s : Socket} (h : s.fd < 0) : s.handle = none :=
  if_neg (by simpa [valid] using h)

@[simp] theorem Socket.handle_default : ({ fd := -1 } : Socket).handle = none := rfl

theorem Socket.close_of_nonneg {s : Socket} (h : 0 ≤ s.fd) (k : Kernel) :
    s.close k = (k.close s.fd, { fd := -1 }) := if_pos h

theorem Socket.close_of_neg {s : Socket} (h : s.fd < 0) (k : Kernel) : s.close k = (k, s) :=
  if_neg (Int.not_le.mpr h)

theorem Socket.close_handle (s : Socket) (k : Kernel) : (s.close k).2.handle = none := by
  rcases lt_or_ge s.fd 0 with hneg | hnonneg
  · rw [Socket.close_of_neg hneg, Socket.handle_of_neg hneg]
  · rw [Socket.close_of_nonneg hnonneg]
    rfl

theorem Kernel.close_of_mem {k : Kernel} {fd : Int} (h : fd ∈ k.fds) :
    k.close fd = { k with fds := k.fds.erase fd } := if_pos h

namespace Sound

variable {k : Kernel} {held : Nat → Option Int} {released : Finset Int} {o o' : Nat} {s : Socket}
  {fd : Int}

theorem erase (h : Sound k held released) (hfd : fd ∈ k.fds)
    {held' : Nat → Option Int} {released' : Finset Int}
    (howned : Owned (k.fds.erase fd) held' released') : Sound (k.close fd) held' released' := by
  rw [Kernel.close_of_mem hfd]
  exact ⟨howned, h.badCloses, fun x hx => h.nonneg x (Finset.mem_of_mem_erase hx)⟩

/-- An object closes what it owns. -/
theorem close (h : Sound k held released) (hs : held o = s.handle) :
    Sound (s.close k).1 (Function.update held o none) released := by
  rcases lt_or_ge s.fd 0 with hneg | hnonneg
  · rw [Socket.handle_of_neg hneg] at hs
    rw [Socket.close_of_neg hneg, ← hs, Function.update_eq_self]
    exact h
  · rw [Socket.handle_of_nonneg hnonneg] at hs
    rw [Socket.close_of_nonneg hnonneg]
    exact h.erase (h.owned.live o _ hs).1 (h.owned.drop hs)

theorem move (h : Sound k held released) {v : Option Int} (hi : held o = v)
    (hj : held o' = none) : Sound k (Function.update (Function.update held o none) o' v) released := by
  cases v with
  | none =>
    rw [← hi, Function.update_eq_self, hi, ← hj, Function.update_eq_self]
    exact h
  | some fd =>
    have hne : o' ≠ o := by
      rintro rfl
      cases hj.symm.trans hi
    refine ⟨h.owned.move hi ?_, h.badCloses, h.nonneg⟩
    rw [Function.update_of_ne hne, hj]

/-- A new descriptor that is closed again leaves no trace. -/
theorem close_insert (hfd : fd ∉ k.fds) : ({ k with fds := insert fd k.fds } : Kernel).close fd = k := by
  rw [Kernel.close_of_mem (Finset.mem_insert_self fd k.fds)]
  simp [Finset.erase_insert hfd]

/-- A new descriptor takes the place of the old one, which is closed. -/
theorem replace (h : Sound k held released) (hs : held o = s.handle) (hnonneg : 0 ≤ fd)
    (hfd : fd ∉ k.fds) :
    Sound (s.close { k with fds := insert fd k.fds }).1 (Function.update held o (some fd))
      released := by
  have hnew (x : Int) (hx : x ∈ insert fd k.fds) : 0 ≤ x := by
    rcases Finset.mem_insert.mp hx with rfl | hx
    · exact hnonneg
    · exact h.nonneg x hx
  rcases lt_or_ge s.fd 0 with hneg | hold
  · rw [Socket.handle_of_neg hneg] at hs
    rw [Socket.close_of_neg hneg]
    exact ⟨h.owned.take hfd hs, h.badCloses, hnew⟩
  · rw [Socket.handle_of_nonneg hold] at hs
    have hopen := (h.owned.live o _ hs).1
    have hne : fd ≠ s.fd := fun heq => hfd (heq ▸ hopen)
    rw [Socket.close_of_nonneg hold, Kernel.close_of_mem (Finset.mem_insert_of_mem hopen)]
    have hkept := (h.owned.drop hs).take (h := fd) (i := o)
      (fun hmem => hfd (Finset.mem_of_mem_erase hmem)) (Function.update_self _ _ _)
    rw [Function.update_idem, ← Finset.erase_insert_of_ne hne] at hkept
    exact ⟨hkept, h.badCloses, fun x hx => hnew x (Finset.mem_of_mem_erase hx)⟩

/-- A function that sets up a socket keeps the new descriptor or closes it again. -/
theorem setUp (h : Sound k held released) (hs : held o = s.handle) (hfresh : fd < 0 ∨ fd ∉ k.fds)
    (prepared : Bool) :
    Sound (setUp k s fd prepared).1 (Function.update held o (setUp k s fd prepared).2.1.handle)
      released := by
  have hsame : Sound k (Function.update held o s.handle) released := by
    rw [← hs, Function.update_eq_self]
    exact h
  rcases lt_or_ge fd 0 with hneg | hnonneg
  · simp only [Net.setUp, Kernel.opened, if_pos hneg]
    exact hsame
  · have hfd : fd ∉ k.fds := hfresh.resolve_left (not_lt.mpr hnonneg)
    have hnot : ¬fd < 0 := not_lt.mpr hnonneg
    simp only [Net.setUp, Kernel.opened, if_neg hnot]
    cases prepared with
    | false =>
      have hwrapped : Socket.close { k with fds := insert fd k.fds } { fd } =
          (k, ({ fd := -1 } : Socket)) := by
        rw [Socket.close_of_nonneg hnonneg, close_insert hfd]
      simp only [Bool.not_false, if_true, hwrapped]
      exact hsame
    | true =>
      simp only [Bool.not_true, Bool.false_eq_true, if_false, Socket.moveAssign]
      rw [Socket.close_of_neg (by decide), Socket.handle_of_nonneg hnonneg]
      exact h.replace hs hnonneg hfd

end Sound

theorem setUp_of_false {k : Kernel} {s : Socket} {fd : Int} {prepared : Bool}
    (h : (setUp k s fd prepared).2.2 = false) : (setUp k s fd prepared).2.1 = s := by
  unfold setUp at h ⊢
  split_ifs at h ⊢ with hneg hfail
  · rfl
  · rfl

namespace Process

variable {p p' : Process} {k : Kernel} {o : Nat} {x : Object}

@[simp] theorem held_store (p : Process) (k : Kernel) (o : Nat) (x : Object) :
    (p.store k o x).held = Function.update p.held o x.sock.handle := by
  funext i
  by_cases hi : i = o
  · subst hi
    simp [held, store]
  · simp [held, store, hi]

@[simp] theorem held_erase (p : Process) (k : Kernel) (o : Nat) :
    (p.erase k o).held = Function.update p.held o none := by
  funext i
  by_cases hi : i = o
  · subst hi
    simp [held, erase]
  · simp [held, erase, hi]

@[simp] theorem held_released (p : Process) (released : Finset Int) :
    held { p with released } = p.held := rfl

theorem held_of_some (h : p.objects o = some x) : p.held o = x.sock.handle := by
  rw [held, h, Option.bind_some]

theorem held_of_none (h : p.objects o = none) : p.held o = none := by
  rw [held, h, Option.bind_none]

/-- The invariant of a process. -/
def Inv (p : Process) : Prop := Sound p.kernel p.held p.released

/-- An object is set up in its place. -/
theorem Inv.setUp (h : p.Inv) {fd : Int} (hfresh : p.Fresh fd) (prepared : Bool) {α : Type} {y : α}
    {withSock : Socket → α} (wrap : α → Object) (hx : p.objects o = some (wrap y))
    (hsock : ∀ s, (wrap (withSock s)).sock = s) :
    let r := install y withSock (Net.setUp p.kernel (wrap y).sock fd prepared)
    (p.store r.1 o (wrap r.2.1)).Inv := by
  have hsound := Sound.setUp h (held_of_some hx) hfresh prepared
  simp only [Inv, held_store, install]
  split_ifs with hok
  · rw [hsock]
    exact hsound
  · rwa [setUp_of_false (Bool.eq_false_iff.mpr hok)] at hsound

theorem Inv.step (h : p.Inv) {a : Action} (hstep : step p a = some p') : p'.Inv := by
  cases a with
  | construct o x =>
    simp only [Process.step] at hstep
    split_ifs at hstep with hnew
    obtain rfl := Option.some.inj hstep
    rw [Inv, held_store, hnew.2, Socket.handle_default, ← held_of_none hnew.1,
      Function.update_eq_self]
    exact h
  | wrap o fd =>
    simp only [Process.step] at hstep
    split_ifs at hstep with hwrap
    obtain rfl := Option.some.inj hstep
    have hnonneg := h.nonneg fd (h.owned.loose hwrap.2)
    have howned := h.owned.adopt hwrap.2 (held_of_none hwrap.1)
    rw [← Socket.handle_of_nonneg (s := { fd }) hnonneg] at howned
    exact ⟨(held_store p p.kernel o (.socket { fd })) ▸ howned, h.badCloses, h.nonneg⟩
  | listen o fd bindResult listenResult bound =>
    simp only [Process.step] at hstep
    split at hstep
    next x hx =>
      split_ifs at hstep with hfresh
      obtain rfl := Option.some.inj hstep
      exact h.setUp hfresh _ .server hx fun _ => rfl
    next => cases hstep
  | accept o conn fd =>
    simp only [Process.step] at hstep
    split at hstep
    next x hx hnone =>
      split_ifs at hstep with hfresh
      rcases lt_or_ge fd 0 with hneg | hnonneg
      · simp only [TcpServer.accept, Kernel.opened, if_pos hneg] at hstep
        obtain rfl := Option.some.inj hstep
        exact h
      · have hnot : ¬fd < 0 := not_lt.mpr hnonneg
        have hfd : fd ∉ p.kernel.fds := hfresh.resolve_left hnot
        simp only [TcpServer.accept, Kernel.opened, if_neg hnot] at hstep
        obtain rfl := Option.some.inj hstep
        have hempty : p.held conn = ({} : Socket).handle := held_of_none hnone
        have hsound := Sound.replace h hempty hnonneg hfd
        rw [Inv, held_store]
        rw [← Socket.handle_of_nonneg (s := { fd }) hnonneg] at hsound
        exact hsound
    next => cases hstep
  | connect o fd ptonResult connectResult =>
    simp only [Process.step] at hstep
    split at hstep
    next x hx =>
      split_ifs at hstep with hfresh
      obtain rfl := Option.some.inj hstep
      exact h.setUp hfresh _ .client hx fun _ => rfl
    next => cases hstep
  | openSocket o port fd ptonResult addr =>
    simp only [Process.step] at hstep
    split at hstep
    next x hx =>
      split_ifs at hstep with hfresh
      obtain rfl := Option.some.inj hstep
      exact h.setUp hfresh _ .sender hx fun _ => rfl
    next => cases hstep
  | bind o fd bindResult bound =>
    simp only [Process.step] at hstep
    split at hstep
    next x hx =>
      split_ifs at hstep with hfresh
      obtain rfl := Option.some.inj hstep
      exact h.setUp hfresh _ .receiver hx fun _ => rfl
    next => cases hstep
  | moveConstruct src dst =>
    simp only [Process.step] at hstep
    split at hstep
    next x hx hnone =>
      obtain rfl := Option.some.inj hstep
      have hmoved := Sound.move h (held_of_some hx) (held_of_none hnone)
      rw [Inv, held_store, held_store, Object.sock_setSock, Object.sock_setSock]
      exact hmoved
    next => cases hstep
  | moveAssign src dst =>
    simp only [Process.step] at hstep
    split at hstep
    next x y hx hy =>
      split_ifs at hstep with hself
      · obtain rfl := Option.some.inj hstep
        exact h
      · obtain ⟨z, hz, rfl⟩ := Option.map_eq_some_iff.mp hstep
        -- The target is closed first, and then takes the source's descriptor.
        have hclosed := Sound.close h (held_of_some hy)
        have hsrc : Function.update p.held dst none src = x.sock.handle := by
          rw [Function.update_of_ne hself, held_of_some hx]
        have hmoved := hclosed.move hsrc (Function.update_self _ _ _)
        rw [Function.update_comm (Ne.symm hself), Function.update_idem] at hmoved
        rw [Inv, held_store, held_store, Object.sock_setSock, Object.sock_of_takeFrom hz]
        exact hmoved
    next => cases hstep
  | close o =>
    obtain ⟨x, hx, hstep⟩ := Option.bind_eq_some_iff.mp hstep
    change some (p.store (x.sock.close p.kernel).1 o (x.setSock (x.sock.close p.kernel).2)) =
      some p' at hstep
    cases hstep
    have hclosed := Sound.close h (held_of_some hx)
    rw [Inv, held_store, Object.sock_setSock, Socket.close_handle]
    exact hclosed
  | release o =>
    obtain ⟨x, hx, hstep⟩ := Option.bind_eq_some_iff.mp hstep
    cases hstep
    have hheld := held_of_some hx
    rw [Inv, held_released, held_store, Object.sock_setSock]
    rcases lt_or_ge x.sock.fd 0 with hneg | hnonneg
    · have hempty : p.held o = none := hheld.trans (Socket.handle_of_neg hneg)
      simp only [if_neg (not_le.mpr hneg), Socket.handle_default]
      rw [← hempty, Function.update_eq_self]
      exact h
    · have howned := h.owned.give (hheld.trans (Socket.handle_of_nonneg hnonneg))
      simp only [if_pos hnonneg, Socket.handle_default]
      exact ⟨howned, h.badCloses, h.nonneg⟩
  | destroy o =>
    obtain ⟨x, hx, hstep⟩ := Option.bind_eq_some_iff.mp hstep
    change some (p.erase (x.sock.close p.kernel).1 o) = some p' at hstep
    cases hstep
    have hclosed := Sound.close h (held_of_some hx)
    rw [Inv, held_erase]
    exact hclosed
  | closeReleased fd =>
    simp only [Process.step] at hstep
    split_ifs at hstep with hmem
    obtain rfl := Option.some.inj hstep
    exact Sound.erase h (h.owned.loose hmem) (h.owned.close hmem)

theorem Inv.of_reachable (h : system.Reachable p) : p.Inv := by
  refine h.invariant ⟨Owned.empty, rfl, ?_⟩ fun s a s' hs hstep => Inv.step hs hstep
  intro fd hfd
  exact absurd hfd (Finset.notMem_empty fd)

/-- Whatever the kernel answers, and also where it gives a descriptor a second time: no
descriptor is closed that is not open, the one that an object has is open and its own, and every
open one is had by an object or was given away. So nothing leaks once all objects are gone. -/
theorem descriptors_owned (h : system.Reachable p) :
    p.kernel.badCloses = 0 ∧
      (∀ o fd, p.held o = some fd →
        fd ∈ p.kernel.fds ∧ fd ∉ p.released ∧ ∀ o', p.held o' = some fd → o' = o) ∧
      (∀ fd ∈ p.kernel.fds, fd ∈ p.released ∨ ∃ o, p.held o = some fd) ∧
      ((∀ o, p.objects o = none) → p.kernel.fds = p.released) := by
  obtain ⟨howned, hbad, -⟩ := Inv.of_reachable h
  refine ⟨hbad, ?_, howned.covered, fun hnone => howned.opened_eq fun o => held_of_none (hnone o)⟩
  intro o fd hheld
  obtain ⟨hopen, hloose⟩ := howned.live o fd hheld
  exact ⟨hopen, hloose, fun o' hheld' => howned.distinct o' o fd hheld' hheld⟩

/-- A connection attempt fails and is made again with the same descriptor, which is then moved
and given away; the server accepts a connection and both are destroyed. -/
def reusingRun : List Action :=
  [.construct 0 (.server {}), .listen 0 3 0 0 (some 9000),
    .construct 1 (.client {}), .connect 1 4 1 (-1), .connect 1 4 1 0,
    .accept 0 2 5, .moveConstruct 1 3, .destroy 1, .release 3, .destroy 3,
    .destroy 2, .destroy 0]

theorem descriptors_owned_reusing :
    ∃ p, system.Reachable p ∧ p.released = {4} ∧ p.kernel.badCloses = 0 ∧
      ((∀ o, p.objects o = none) → p.kernel.fds = p.released) := by
  have hrun : (system.run system.start reusingRun).any (fun p => decide (p.released = {4})) =
      true := by decide +kernel
  obtain ⟨p, hp, hreleased⟩ := (Option.any_eq_true _ _).mp hrun
  obtain ⟨hbad, -, -, hnone⟩ := descriptors_owned ⟨reusingRun, hp⟩
  exact ⟨p, ⟨reusingRun, hp⟩, of_decide_eq_true hreleased, hbad, hnone⟩

end Process

end Mdfh.Net
