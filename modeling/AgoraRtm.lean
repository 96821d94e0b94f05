import AgoraRtm.Runs
import AgoraRtm.Progress
import AgoraRtm.Histories
import AgoraRtm.Fifo
import AgoraRtm.AsyncQueue
import AgoraRtm.QueueInvariant
import AgoraRtm.QueueSafety
import AgoraRtm.Capacity
import AgoraRtm.Closing
import AgoraRtm.Utf8
import AgoraRtm.Transcoding
import AgoraRtm.NativeEvents
import AgoraRtm.Snapshot
import AgoraRtm.Delivery
import AgoraRtm.NativeCalls
import AgoraRtm.Draining
import AgoraRtm.Starvation
import AgoraRtm.Registry
import AgoraRtm.OnceTable
import AgoraRtm.Adapter
import AgoraRtm.Emission
import AgoraRtm.AdapterInvariant
import AgoraRtm.Exclusion
import AgoraRtm.NativeSystem
import AgoraRtm.Sequential
import AgoraRtm.Lifetime
import AgoraRtm.HandlerSafety
import AgoraRtm.ChannelLifecycle
import AgoraRtm.Retained
import AgoraRtm.ListenerTable
import AgoraRtm.Overlap
import AgoraRtm.Retrying
import AgoraRtm.Quiescence
import AgoraRtm.Hanging
import AgoraRtm.Unwinding
import AgoraRtm.Interference
import AgoraRtm.Reception
import AgoraRtm.Signatures
import AgoraRtm.Settlement
import AgoraRtm.Process
import AgoraRtm.Settling
import AgoraRtm.Stranding
import AgoraRtm.Ensemble
import AgoraRtm.Awaiting
import AgoraRtm.Traced
import AgoraRtm.NodeApi
import AgoraRtm.StringRoundTrip
import AgoraRtm.EntryPoints
import AgoraRtm.Conversation
import AgoraRtm.PeerQuery
import AgoraRtm.PeerIds
import AgoraRtm.StringArguments
import AgoraRtm.Uninitialised
import AgoraRtm.Forwarding
import AgoraRtm.StatusCodes
import AgoraRtm.Identifiers
import AgoraRtm.Ownership
import AgoraRtm.MemberArrays
import AgoraRtm.CallbackRecords
import AgoraRtm.Resources
import AgoraRtm.Sampling
import AgoraRtm.Logging
