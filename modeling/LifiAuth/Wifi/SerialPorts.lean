import LifiAuth.Support.Machine
import LifiAuth.Wifi.Presence
import Mathlib.Logic.Function.Basic

/-!
# Serial ports of the dashboard

`app.py` holds up to three serial connections.  The handlers that connect a named port
take it away from the other two connections first; of those that look for a port
themselves one tries ports without a look at the others, and one looks at one of them
only.  Two connections share a device exactly where such a search finds one in use, or
where a device is opened under a second name.
-/

namespace LifiAuth

open Support

/-- `serial_conn`, `rx_serial_conn` and `rx2_serial_conn`. -/
inductive SerialSlot where
  | tx
  | rx
  | rx2
  deriving DecidableEq

/-- Besides a connection there are two. -/
theorem SerialSlot.eq_or_eq {a b slot slot' : SerialSlot} (ha : a ≠ slot) (hb : b ≠ slot)
    (hab : a ≠ b) (h : slot' ≠ slot) : slot' = a ∨ slot' = b := by
  cases slot <;> cases slot' <;> cases a <;> cases b <;> simp_all

/-- The connections, each with the name it was opened with, and `TX_PORT`, `RX_PORT` and
`RX2_PORT`. -/
structure SerialPorts where
  conn : SerialSlot → Option (List UInt8)
  port : SerialSlot → List UInt8

/-- How `serial.Serial` ends. -/
inductive OpenResult where
  | opened
  | serialException
  | otherException
  deriving DecidableEq

def ttyAcm (n : ℕ) : List UInt8 :=
  ascii "/dev/ttyACM" ++ decimal n

namespace SerialPorts

/-- The globals after startup. -/
def start : SerialPorts where
  conn _ := none
  port
    | .tx => ttyAcm 0
    | .rx => ttyAcm 1
    | .rx2 => []

variable (s : SerialPorts)

/-- `conn = None`, after closing it. -/
def close (slot : SerialSlot) : SerialPorts :=
  { s with conn := Function.update s.conn slot none }

/-- Take the port away from a connection that is on it. -/
def release (slot : SerialSlot) (port : List UInt8) : SerialPorts :=
  if (s.conn slot).isSome ∧ s.port slot = port then
    { conn := Function.update s.conn slot none
      port := Function.update s.port slot [] }
  else s

/-- A connection that has been opened. -/
def assign (slot : SerialSlot) (port : List UInt8) : SerialPorts where
  conn := Function.update s.conn slot (some port)
  port := Function.update s.port slot port

/-- `serial.Serial(port, ...)` of the handlers that connect: any exception leaves the
connection at `None` and the port variable as it is. -/
def connect (slot : SerialSlot) (port : List UInt8) (result : OpenResult) : SerialPorts :=
  if result = .opened then s.assign slot port else s

/-- What the handlers that connect do with a device: the connections `a` and `b` release
it before it is opened. -/
def takeOver (slot a b : SerialSlot) (port : List UInt8) (result : OpenResult) :
    SerialPorts :=
  (((s.release a port).release b port).close slot).connect slot port result

end SerialPorts

/-- The first port of a search that opens.  Ports in `skip` are not tried, and an
exception other than `SerialException` breaks the search off. -/
def firstOpened (skip : List (List UInt8)) (result : List UInt8 → OpenResult) :
    List (List UInt8) → Option (List UInt8)
  | [] => none
  | port :: ports =>
      if port ∈ skip then firstOpened skip result ports
      else
        match result port with
        | .opened => some port
        | .serialException => firstOpened skip result ports
        | .otherException => none

namespace SerialPorts

variable (s : SerialPorts)

/-- A search for a port, after which the connection is open or `None`. -/
def search (slot : SerialSlot) (skip : List (List UInt8)) (result : List UInt8 → OpenResult)
    (ports : List (List UInt8)) : SerialPorts :=
  match firstOpened skip result ports with
  | some port => s.assign slot port
  | none => s

/-! ## Handlers

`port` is `message.get('port', '').strip()`. -/

/-- `handle_connect_to_port`. -/
def handleConnectToPort (port : List UInt8) (result : OpenResult) : SerialPorts :=
  if port = [] then s
  else if isWifiPeer port then s
  else s.takeOver .tx .rx .rx2 port result

/-- `handle_rx_connect`. -/
def handleRxConnect (port : List UInt8) (result : OpenResult) : SerialPorts :=
  if port = [] then s
  else if isWifiPeer port then s
  else s.takeOver .rx .tx .rx2 port result

/-- `handle_rx2_connect`; what is not a device is the name of a WiFi peer. -/
def handleRx2Connect (port : List UInt8) (result : OpenResult) : SerialPorts :=
  if port = [] then s
  else if ¬ (ascii "/dev/").isPrefixOf port then
    { s.close .rx2 with port := Function.update s.port .rx2 port }
  else s.takeOver .rx2 .tx .rx port result

/-- The ports that `init_serial` tries. -/
def txSearch : List (List UInt8) := [ttyAcm 0, ttyAcm 1, ttyAcm 2]

/-- The ports that `init_rx_serial` tries. -/
def rxSearch : List (List UInt8) := [ttyAcm 1, ttyAcm 2, ttyAcm 0]

/-- The ports that `handle_rx2_reconnect` tries. -/
def rx2Search : List (List UInt8) := [ttyAcm 2, ttyAcm 1, ttyAcm 0]

/-- `handle_reconnect`, with `init_serial`. -/
def handleReconnect (result : List UInt8 → OpenResult) : SerialPorts :=
  (s.close .tx).search .tx [] result txSearch

/-- `handle_rx_reconnect`, with `init_rx_serial`. -/
def handleRxReconnect (result : List UInt8 → OpenResult) : SerialPorts :=
  (s.close .rx).search .rx [s.port .tx] result rxSearch

/-- `handle_rx2_reconnect`. -/
def handleRx2Reconnect (result : List UInt8 → OpenResult) : SerialPorts :=
  (s.close .rx2).search .rx2 [s.port .tx, s.port .rx] result rx2Search

end SerialPorts

/-- The events, with how each opening of a port ends. -/
inductive PortEvent where
  | connectToPort (port : List UInt8) (result : OpenResult)
  | rxConnectToPort (port : List UInt8) (result : OpenResult)
  | rx2ConnectToPort (port : List UInt8) (result : OpenResult)
  | reconnectSerial (result : List UInt8 → OpenResult)
  | rxReconnect (result : List UInt8 → OpenResult)
  | rx2Reconnect (result : List UInt8 → OpenResult)

/-- The port events of the dashboard in any order. -/
def portEvents : Machine SerialPorts PortEvent Empty where
  step s e :=
    (match e with
      | .connectToPort port result => s.handleConnectToPort port result
      | .rxConnectToPort port result => s.handleRxConnect port result
      | .rx2ConnectToPort port result => s.handleRx2Connect port result
      | .reconnectSerial result => s.handleReconnect result
      | .rxReconnect result => s.handleRxReconnect result
      | .rx2Reconnect result => s.handleRx2Reconnect result, [])

/-! ## Exclusive devices -/

section

variable {δ : Type*} (device : List UInt8 → δ)

/-- No two open connections are on one device, and each is on the device that its port
variable names. -/
structure SerialPorts.Exclusive (s : SerialPorts) : Prop where
  distinct : ∀ slot slot', slot ≠ slot' → ∀ p ∈ s.conn slot, ∀ q ∈ s.conn slot',
    device p ≠ device q
  named : ∀ slot, ∀ p ∈ s.conn slot, device p = device (s.port slot)

/-- The device of `port` is not one that another connection than `slot` is on under
another name. -/
def SerialPorts.NoAlias (s : SerialPorts) (slot : SerialSlot) (port : List UInt8) : Prop :=
  ∀ slot' ≠ slot, ∀ q ∈ s.conn slot', q ≠ port → device q ≠ device port

/-- The device of `port` is not one that another connection than `slot` is on. -/
def SerialPorts.Free (s : SerialPorts) (slot : SerialSlot) (port : List UInt8) : Prop :=
  ∀ slot' ≠ slot, ∀ q ∈ s.conn slot', device q ≠ device port

/-- What keeps the devices apart: a handler that connects a named port does not open a
device that is in use under another name, and where a search ends the device is not in
use. -/
def KeepsApart (_ : List Empty) (s : SerialPorts) : PortEvent → Prop
  | .connectToPort port result =>
      (ascii "/dev/").isPrefixOf port → result = .opened → s.NoAlias device .tx port
  | .rxConnectToPort port result =>
      (ascii "/dev/").isPrefixOf port → result = .opened → s.NoAlias device .rx port
  | .rx2ConnectToPort port result =>
      (ascii "/dev/").isPrefixOf port → result = .opened → s.NoAlias device .rx2 port
  | .reconnectSerial result =>
      ∀ port ∈ firstOpened [] result SerialPorts.txSearch, s.Free device .tx port
  | .rxReconnect result =>
      ∀ port ∈ firstOpened [s.port .tx] result SerialPorts.rxSearch, s.Free device .rx port
  | .rx2Reconnect result =>
      ∀ port ∈ firstOpened [s.port .tx, s.port .rx] result SerialPorts.rx2Search,
        s.Free device .rx2 port

variable {device}

namespace SerialPorts

/-- Each open connection was opened with the name that its port variable holds. -/
def Named (s : SerialPorts) : Prop :=
  ∀ slot, ∀ p ∈ s.conn slot, s.port slot = p

/-! ## Operations -/

variable {s u : SerialPorts} {slot slot' : SerialSlot} {port q : List UInt8}

theorem mem_close : q ∈ (s.close slot).conn slot' ↔ q ∈ s.conn slot' ∧ slot' ≠ slot := by
  by_cases h : slot' = slot
  · simp [close, h]
  · simp [close, h]

theorem mem_release (hs : s.Named) :
    q ∈ (s.release slot port).conn slot' ↔ q ∈ s.conn slot' ∧ (slot' = slot → q ≠ port) := by
  rw [release]
  split
  · next h =>
      by_cases heq : slot' = slot
      · rw [heq]
        refine iff_of_false (by simp) ?_
        rintro ⟨hq, hne⟩
        exact hne rfl ((hs slot q hq).symm.trans h.2)
      · simp [heq]
  · next h =>
      refine ⟨fun hq => ⟨hq, ?_⟩, And.left⟩
      rintro rfl rfl
      exact h ⟨Option.isSome_of_mem hq, hs slot' q hq⟩

theorem Named.close (hs : s.Named) (slot : SerialSlot) : (s.close slot).Named := by
  intro slot' p hp
  exact hs slot' p (mem_close.mp hp).1

theorem Named.release (hs : s.Named) (slot : SerialSlot) (port : List UInt8) :
    (s.release slot port).Named := by
  intro slot' p hp
  have hold := ((mem_release hs).mp hp).1
  rw [SerialPorts.release]
  split
  · next h =>
      have hne : slot' ≠ slot := by
        rintro rfl
        exact ((mem_release hs).mp hp).2 rfl ((hs slot' p hold).symm.trans h.2)
      exact (Function.update_of_ne hne ..).trans (hs slot' p hold)
  · exact hs slot' p hold

theorem Named.assign (hs : s.Named) (slot : SerialSlot) (port : List UInt8) :
    (s.assign slot port).Named := by
  intro slot' p hp
  rw [SerialPorts.assign] at hp ⊢
  by_cases heq : slot' = slot
  · rw [heq] at hp ⊢
    simpa using hp
  · simp only [Function.update_of_ne heq] at hp ⊢
    exact hs slot' p hp

theorem Named.wifiPeer (hs : s.Named) (port : List UInt8) :
    ({ s.close .rx2 with port := Function.update s.port .rx2 port } : SerialPorts).Named := by
  intro slot p hp
  obtain ⟨hold, hne⟩ := mem_close.mp hp
  exact (Function.update_of_ne hne ..).trans (hs slot p hold)

theorem Named.connect (hs : s.Named) (slot : SerialSlot) (port : List UInt8)
    (result : OpenResult) : (s.connect slot port result).Named := by
  rw [SerialPorts.connect]
  split
  · exact hs.assign slot port
  · exact hs

theorem Named.takeOver (hs : s.Named) (slot a b : SerialSlot) (port : List UInt8)
    (result : OpenResult) : (s.takeOver slot a b port result).Named :=
  (((hs.release a port).release b port).close slot).connect slot port result

theorem Named.search (hs : s.Named) (slot : SerialSlot) (skip : List (List UInt8))
    (result : List UInt8 → OpenResult) (ports : List (List UInt8)) :
    (s.search slot skip result ports).Named := by
  rw [SerialPorts.search]
  split
  · exact hs.assign slot _
  · exact hs

/-- The names stay right, whatever the devices are. -/
theorem Named.step (hs : s.Named) (e : PortEvent) : (portEvents.step s e).1.Named := by
  cases e with
  | connectToPort port result =>
      simp only [portEvents, handleConnectToPort]
      split_ifs
      · exact hs
      · exact hs
      · exact hs.takeOver .tx .rx .rx2 port result
  | rxConnectToPort port result =>
      simp only [portEvents, handleRxConnect]
      split_ifs
      · exact hs
      · exact hs
      · exact hs.takeOver .rx .tx .rx2 port result
  | rx2ConnectToPort port result =>
      simp only [portEvents, handleRx2Connect]
      split_ifs
      · exact hs
      · exact hs.takeOver .rx2 .tx .rx port result
      · exact hs.wifiPeer port
  | reconnectSerial result => exact (hs.close .tx).search .tx _ result _
  | rxReconnect result => exact (hs.close .rx).search .rx _ result _
  | rx2Reconnect result => exact (hs.close .rx2).search .rx2 _ result _

/-- Closing connections keeps the others apart. -/
theorem Exclusive.mono (hs : s.Exclusive device) (hu : u.Named)
    (hsub : ∀ slot, ∀ p ∈ u.conn slot, p ∈ s.conn slot) : u.Exclusive device := by
  refine ⟨?_, ?_⟩
  · intro slot slot' hne p hp q hq
    exact hs.distinct slot slot' hne p (hsub slot p hp) q (hsub slot' q hq)
  · intro slot p hp
    rw [hu slot p hp]

/-- A new connection is on a device of its own exactly if that was free. -/
theorem assign_exclusive_iff (hs : s.Exclusive device) (hn : s.Named) :
    (s.assign slot port).Exclusive device ↔ s.Free device slot port := by
  have hself : port ∈ (s.assign slot port).conn slot := Function.update_self ..
  have hother {slot'} (hne : slot' ≠ slot) : (s.assign slot port).conn slot' = s.conn slot' :=
    Function.update_of_ne hne ..
  constructor
  · intro h slot' hne q hq
    exact h.distinct slot' slot hne q (by rwa [hother hne]) port hself
  · intro hfree
    refine ⟨?_, ?_⟩
    · intro a b hab p hp q hq
      by_cases ha : a = slot
      · subst ha
        obtain rfl := Option.mem_unique hp hself
        rw [hother (Ne.symm hab)] at hq
        exact (hfree b (Ne.symm hab) q hq).symm
      · rw [hother ha] at hp
        by_cases hb : b = slot
        · subst hb
          obtain rfl := Option.mem_unique hq hself
          exact hfree a ha p hp
        · rw [hother hb] at hq
          exact hs.distinct a b hab p hp q hq
    · intro a p hp
      rw [hn.assign slot port a p hp]

/-! ## One step -/

/-- What holds after every event: the connections have the names in their port
variables, and are on devices of their own. -/
def Apart (device : List UInt8 → δ) (s : SerialPorts) : Prop :=
  s.Named ∧ s.Exclusive device

theorem apart_takeOver_iff (hs : s.Apart device) {a b : SerialSlot} (ha : a ≠ slot)
    (hb : b ≠ slot) (hab : a ≠ b) (result : OpenResult) :
    (s.takeOver slot a b port result).Apart device ↔
      (result = .opened → s.NoAlias device slot port) := by
  obtain ⟨hn, he⟩ := hs
  have hna := hn.release a port
  have hnu := (hna.release b port).close slot
  generalize hu : ((s.release a port).release b port).close slot = u at hnu
  have hmem {slot'} (hne : slot' ≠ slot) {q} :
      q ∈ u.conn slot' ↔ q ∈ s.conn slot' ∧ q ≠ port := by
    rw [← hu, mem_close, mem_release hna, mem_release hn]
    rcases SerialSlot.eq_or_eq ha hb hab hne with rfl | rfl <;> tauto
  have heu : u.Exclusive device := by
    refine he.mono hnu ?_
    intro slot' p hp
    rw [← hu, mem_close, mem_release hna, mem_release hn] at hp
    exact hp.1.1.1
  rw [takeOver, hu, connect]
  split
  · next hopen =>
      rw [Apart, and_iff_right (hnu.assign slot port), assign_exclusive_iff heu hnu]
      constructor
      · intro h _ slot' hne q hq hqp
        exact h slot' hne q ((hmem hne).mpr ⟨hq, hqp⟩)
      · intro h slot' hne q hq
        obtain ⟨hq, hqp⟩ := (hmem hne).mp hq
        exact h hopen slot' hne q hq hqp
  · next hopen =>
      exact iff_of_true ⟨hnu, heu⟩ fun h => absurd h hopen

theorem apart_search_iff (hs : s.Apart device) (skip : List (List UInt8))
    (result : List UInt8 → OpenResult) (ports : List (List UInt8)) :
    ((s.close slot).search slot skip result ports).Apart device ↔
      ∀ port ∈ firstOpened skip result ports, s.Free device slot port := by
  obtain ⟨hn, he⟩ := hs
  have hnu := hn.close slot
  have heu : (s.close slot).Exclusive device := by
    refine he.mono hnu ?_
    intro slot' p hp
    exact (mem_close.mp hp).1
  rw [search]
  split
  · next port hport =>
      rw [Apart, and_iff_right (hnu.assign slot port), assign_exclusive_iff heu hnu, hport]
      simp only [Option.mem_some_iff, forall_eq', Free, mem_close]
      constructor
      · intro h slot' hne q hq
        exact h slot' hne q ⟨hq, hne⟩
      · intro h slot' hne q hq
        exact h slot' hne q hq.1
  · next hport =>
      refine iff_of_true ⟨hnu, heu⟩ ?_
      rw [hport]
      simp

/-- What is connected is a device. -/
theorem isPrefixOf_dev_iff :
    (ascii "/dev/").isPrefixOf port ↔ ¬ port = [] ∧ ¬ isWifiPeer port := by
  cases port with
  | nil => simp [ascii]
  | cons c port => simp [isWifiPeer]

/-- The handlers of TX and RX leave the ports alone unless they are given a device. -/
theorem apart_device_iff (hs : s.Apart device) {C : Prop} (h : u.Apart device ↔ C) :
    (if port = [] then s else if isWifiPeer port then s else u).Apart device ↔
      ((ascii "/dev/").isPrefixOf port → C) := by
  rw [isPrefixOf_dev_iff]
  split
  · next hnil => exact iff_of_true hs fun hdev => absurd hnil hdev.1
  · next hne =>
      split
      · next hwifi => exact iff_of_true hs fun hdev => absurd hwifi hdev.2
      · next hwifi =>
          rw [h]
          exact ⟨fun hC _ => hC, fun hC => hC ⟨hne, hwifi⟩⟩

theorem apart_rx2Connect_iff (hs : s.Apart device) (result : OpenResult) :
    (s.handleRx2Connect port result).Apart device ↔
      ((ascii "/dev/").isPrefixOf port → result = .opened → s.NoAlias device .rx2 port) := by
  rw [handleRx2Connect]
  split
  · next hnil =>
      rw [hnil]
      exact iff_of_true hs (by simp [ascii])
  · split
    · next hdev =>
        refine iff_of_true ?_ fun h => absurd h hdev
        refine ⟨hs.1.wifiPeer port, hs.2.mono (hs.1.wifiPeer port) ?_⟩
        intro slot p hp
        exact (mem_close.mp hp).1
    · next hdev =>
        rw [apart_takeOver_iff hs (by decide) (by decide) (by decide) result]
        exact ⟨fun h _ => h, fun h => h (not_not.mp hdev)⟩

theorem apart_step_iff (hs : s.Apart device) (t : List Empty) (e : PortEvent) :
    (portEvents.step s e).1.Apart device ↔ KeepsApart device t s e := by
  cases e with
  | connectToPort port result =>
      exact apart_device_iff hs
        (apart_takeOver_iff hs (by decide) (by decide) (by decide) result)
  | rxConnectToPort port result =>
      exact apart_device_iff hs
        (apart_takeOver_iff hs (by decide) (by decide) (by decide) result)
  | rx2ConnectToPort port result => exact apart_rx2Connect_iff hs result
  | reconnectSerial result => exact apart_search_iff hs _ result _
  | rxReconnect result => exact apart_search_iff hs _ result _
  | rx2Reconnect result => exact apart_search_iff hs _ result _

end SerialPorts

end

/-! ## Devices with one name -/

theorem not_mem_of_firstOpened {skip ports : List (List UInt8)}
    {result : List UInt8 → OpenResult} {port : List UInt8}
    (h : firstOpened skip result ports = some port) : port ∉ skip := by
  induction ports with
  | nil => cases h
  | cons p ports ih =>
      rw [firstOpened] at h
      split at h
      · exact ih h
      · next hp =>
          split at h
          · exact Option.some.inj h ▸ hp
          · exact ih h
          · cases h

/-- Where every device has one name, only the searches of `reconnect_serial` and
`rx_reconnect` can take a device that is in use. -/
theorem keepsApart_of_injective {δ : Type*} {device : List UInt8 → δ}
    (hinj : Function.Injective device) {s : SerialPorts} (hs : s.Named) (t : List Empty)
    {e : PortEvent} (htx : ∀ result, e ≠ .reconnectSerial result)
    (hrx : ∀ result, e ≠ .rxReconnect result) : KeepsApart device t s e := by
  have hconnect (slot : SerialSlot) (port : List UInt8) : s.NoAlias device slot port := by
    intro slot' _ q _ hne heq
    exact hne (hinj heq)
  cases e with
  | connectToPort port result => exact fun _ _ => hconnect .tx port
  | rxConnectToPort port result => exact fun _ _ => hconnect .rx port
  | rx2ConnectToPort port result => exact fun _ _ => hconnect .rx2 port
  | reconnectSerial result => exact absurd rfl (htx result)
  | rxReconnect result => exact absurd rfl (hrx result)
  | rx2Reconnect result =>
      intro port hport slot hne q hq heq
      obtain rfl := hinj heq
      have hskip := not_mem_of_firstOpened hport
      rw [← hs slot q hq] at hskip
      have hslot : slot = .tx ∨ slot = .rx :=
        SerialSlot.eq_or_eq (by decide) (by decide) (by decide) hne
      rcases hslot with rfl | rfl
      · exact hskip List.mem_cons_self
      · exact hskip (List.mem_cons_of_mem _ List.mem_cons_self)

/-! ## Runs -/

section

variable {δ : Type*} (device : List UInt8 → δ)

theorem apart_start : SerialPorts.start.Apart device := by
  refine ⟨?_, ?_, ?_⟩
  · intro slot p hp
    cases hp
  · intro slot slot' _ p hp
    cases hp
  · intro slot p hp
    cases hp

/-- After every event the connections are on devices of their own, each on the one that
its port variable names, exactly if no event takes a device that is in use. -/
theorem ports_exclusive_iff (events : List PortEvent) :
    (∀ n, (portEvents.run SerialPorts.start (events.take n)).Exclusive device) ↔
      portEvents.Admissible (KeepsApart device) [] SerialPorts.start events := by
  have hnamed (events : List PortEvent) : (portEvents.run SerialPorts.start events).Named :=
    Machine.past_run (P := fun _ s => SerialPorts.Named s)
      (fun _ _ e hs => hs.step e) (apart_start device).1 events
  rw [← Machine.forall_run_take_iff (P := SerialPorts.Apart device)
    (fun t s e _ hs => SerialPorts.apart_step_iff hs t e) [] (apart_start device)]
  constructor
  · intro h n
    exact ⟨hnamed _, h n⟩
  · intro h n
    exact (h n).2

end

/-- The receiver is connected to the first port, and then the sender looks for one. -/
def sharedPortEvents : List PortEvent :=
  [.rxConnectToPort (ttyAcm 0) .opened, .reconnectSerial fun _ => .opened]

/-- Both are on the first port. -/
theorem sharedPort_not_exclusive :
    ¬ ∀ n, (portEvents.run SerialPorts.start (sharedPortEvents.take n)).Exclusive id := by
  intro h
  exact (h 2).distinct .tx .rx (by decide) (ttyAcm 0) rfl (ttyAcm 0) rfl rfl

end LifiAuth
