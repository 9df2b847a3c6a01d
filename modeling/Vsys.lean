import Vsys.Schedule.Run
import Vsys.RpcParkingSim.LotSafety
import Vsys.NetParkingSim.RequestDispatcher
import Vsys.Schedule.Pipeline
import Vsys.NetParkingSim.ServerAgreement
import Vsys.CppAsio.AtomicParkingLot
import Vsys.ParkingSim.QuietRuns
import Vsys.ParkingSim.ExplicitLocking
import Vsys.CppAsio.Session
import Vsys.CppAsio.RequestLanguage
import Vsys.Schedule.Scan
import Vsys.NetParkingSim.Multicast
import Vsys.RpcParkingSim.Reflection
import Vsys.RpcParkingSim.SerializableMethod
import Vsys.RpcParkingSim.Session
import Vsys.RpcParkingSim.Confinement
import Vsys.RpcParkingSim.ResponseOrder
import Vsys.RpcParkingSim.Client
import Vsys.RpcParkingSim.BatchCalls
import Vsys.RpcParkingSim.MalformedRequests
import Vsys.RpcParkingSim.MethodLife
import Vsys.Text.Splitting
import Vsys.NetParkingSim.RequestStream
import Vsys.Schedule.Machine
import Vsys.ParkingSim.Interchange
import Vsys.ParkingSim.Interrupts
import Vsys.CppAsio.Connection
import Vsys.CppAsio.Server
import Vsys.CppAsio.ServerProcess
import Vsys.CppAsio.Conversation
import Vsys.NetParkingSim.HostArguments
import Vsys.NetParkingSim.Observation
import Vsys.RpcParkingSim.Server
import Vsys.NetParkingSim.ServerMain
import Vsys.Text.Istream
import Vsys.Text.Reading
import Vsys.CppAsio.Client
import Vsys.NetParkingSim.MulticastLoops
import Vsys.NetParkingSim.HostNumbers
import Vsys.Schedule.Refinement
import Vsys.Schedule.RemoteObject
import Vsys.RpcParkingSim.ClientTurn
import Vsys.RpcParkingSim.RemoteCalls
import Vsys.RpcParkingSim.AtomicCalls
import Vsys.RpcParkingSim.Awaiting
import Vsys.CppAsio.ServerRuns
import Vsys.CppAsio.ExclusiveHandlers
import Vsys.Asio.Write
import Vsys.CppAsio.RequestBuffer
import Vsys.CppAsio.ServerMain
import Vsys.CppAsio.EndpointArguments
import Vsys.CppAsio.ClientSteps
import Vsys.CppAsio.Contacts
import Vsys.CppAsio.ContactProgress
import Vsys.CppAsio.ClientAgreement
import Vsys.CppAsio.AtomicContacts
import Vsys.Schedule.Completion
import Vsys.ParkingSim.CarFactory
import Vsys.ParkingSim.Demo
import Vsys.NetParkingSim.ClientSteps
import Vsys.NetParkingSim.Contacts
import Vsys.NetParkingSim.AtomicContacts
import Vsys.NetParkingSim.RequestLog
