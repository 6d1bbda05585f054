import LifiAuth.Support.Bytes
import LifiAuth.Support.Hunt
import LifiAuth.Support.Ring
import LifiAuth.Protocol.Constants
import LifiAuth.Protocol.Crc16
import LifiAuth.Protocol.Serial
import LifiAuth.Sender.Framing
import LifiAuth.Dash.Uart
import LifiAuth.Dash.FrameRoundTrip
import LifiAuth.Dash.ReplayWindow
import LifiAuth.Dash.State
import LifiAuth.Dash.Handlers
import LifiAuth.Dash.Replay
import LifiAuth.Pico.Flash
import LifiAuth.Pico.State
import LifiAuth.Pico.Commands
import LifiAuth.Pico.Handlers
import LifiAuth.Pico.NonceUnique
import LifiAuth.Pico.Drain
import LifiAuth.Pico.Keyless
import LifiAuth.Protocol.Handshake
import LifiAuth.Dash.Outputs
import LifiAuth.Dash.SstApi
import LifiAuth.System.Handshake
import LifiAuth.System.Authenticity
import LifiAuth.Wifi.Dashboard
import LifiAuth.Wifi.ChallengeServer
import LifiAuth.Wifi.Agreement
import LifiAuth.System.KeyUpdate
import LifiAuth.Dash.File
import LifiAuth.System.Fidelity
import LifiAuth.Protocol.Heatshrink
import LifiAuth.Pico.KeyCoherence
import LifiAuth.Pico.PowerLoss
import LifiAuth.Support.Period
import LifiAuth.System.KeyDelivery
import LifiAuth.Keys.Receiver
import LifiAuth.Wifi.ForceKey
import LifiAuth.Dash.KeyCoherence
import LifiAuth.Wifi.Threads
import LifiAuth.System.Provision
import LifiAuth.Dash.WaitingSecrets
import LifiAuth.Pico.Indicator
import LifiAuth.Pico.KeyInstall
import LifiAuth.Dash.ParserSound
import LifiAuth.Dash.Purpose
import LifiAuth.Wifi.Presence
import LifiAuth.Wifi.FrameReports
import LifiAuth.Wifi.DomainSeparation
import LifiAuth.Support.Pio
import LifiAuth.Phy.Transmitter
import LifiAuth.Phy.Receiver
import LifiAuth.Phy.RoundTrip
import LifiAuth.Receivers.FileBytes
import LifiAuth.Receivers.Resync
import LifiAuth.Pico.CommandContract
import LifiAuth.Pico.FlashDriver
import LifiAuth.Support.NorFlash
import LifiAuth.Protocol.HeatshrinkDecoder
import LifiAuth.Protocol.HeatshrinkStream
import LifiAuth.Protocol.HeatshrinkOverflow
import LifiAuth.Dash.Decompress
import LifiAuth.Support.Access
import LifiAuth.Dash.Accesses
import LifiAuth.Dash.Bounds
import LifiAuth.Support.ShiftRegister
import LifiAuth.Protocol.CrcDetection
import LifiAuth.Dash.FailedFetch
import LifiAuth.Receivers.KeyById
import LifiAuth.Pico.LineAssembly
import LifiAuth.System.FrameLengths
import LifiAuth.Wifi.FrameHandler
import LifiAuth.Pico.StoredKey
import LifiAuth.Pico.StrictPlaintexts
import LifiAuth.System.HexReaders
import LifiAuth.Support.Mailbox
import LifiAuth.Wifi.Mailboxes
import LifiAuth.Support.Json
import LifiAuth.Support.JsonTokens
import LifiAuth.Support.JsonWriter
import LifiAuth.Wifi.ReportText
import LifiAuth.Support.RingQueue
import LifiAuth.Wifi.StatusQueue
import LifiAuth.Wifi.RequestAgreement
import LifiAuth.Wifi.RequestReplay
import LifiAuth.System.SenderBounds
import LifiAuth.Dash.SlidingWindow
import LifiAuth.Support.Loop
import LifiAuth.Support.Strtoul
import LifiAuth.Benchmark.Messages
import LifiAuth.Benchmark.TestCommand
import LifiAuth.Wifi.SerialPorts
import LifiAuth.Benchmark.AutoTest
import LifiAuth.Benchmark.RateAgreement
import LifiAuth.Benchmark.Attribution
import LifiAuth.Support.LongestMatch
import LifiAuth.Support.LempelZiv
import LifiAuth.Protocol.HeatshrinkTokens
import LifiAuth.Protocol.HeatshrinkEncoder
import LifiAuth.Protocol.HeatshrinkSearch
import LifiAuth.Protocol.HeatshrinkEncoding
import LifiAuth.Protocol.HeatshrinkCalls
import LifiAuth.Protocol.HeatshrinkPipeline
import LifiAuth.System.CompressedFidelity
import LifiAuth.Protocol.HeatshrinkAccesses
import LifiAuth.System.SessionFidelity
import LifiAuth.Benchmark.FullRun
import LifiAuth.Benchmark.ReceiverMain
import LifiAuth.Benchmark.ResultLines
import LifiAuth.Benchmark.FromDashboard
import LifiAuth.Support.FrameQueue
import LifiAuth.System.Wired
import LifiAuth.System.HandshakeRun
import LifiAuth.System.UpdateRun
import LifiAuth.System.AckRun
import LifiAuth.System.Delivery
import LifiAuth.System.SessionStart
import LifiAuth.Protocol.HeatshrinkDecoderAccesses
