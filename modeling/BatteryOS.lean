import BatteryOS.V3.Limits
import BatteryOS.V3.LastWriter
import BatteryOS.V3.System
import BatteryOS.V3.Isolation
import BatteryOS.V3.Removal
import BatteryOS.V3.Delivery
import BatteryOS.V3.LateWakeUp
import BatteryOS.V3.Charging
import BatteryOS.V3.EndOfStream
import BatteryOS.V3.DynamicBattery
import BatteryOS.V3.Remote
import BatteryOS.V3.Voltage
import BatteryOS.V3.Dispatch
import BatteryOS.V3.Proportional
import BatteryOS.V3.FreshNames
import BatteryOS.V2.SumLaw
import BatteryOS.V2.Scale
import BatteryOS.V2.InRange
import BatteryOS.V2.RefreshProportional
import BatteryOS.V2.ChildSchedule
import BatteryOS.V2.ChargeEstimate
import BatteryOS.V2.Aggregator
import BatteryOS.V3.Releases
import BatteryOS.V3.SecureClient
import BatteryOS.V2.Topology
import BatteryOS.V2.NetworkBattery
import BatteryOS.V2.JBDBMS
import BatteryOS.V1.Aggregator
import BatteryOS.V1.Policy
import BatteryOS.V1.SplitterBattery
import BatteryOS.V1.Node
import BatteryOS.V1.NodeFrame
import BatteryOS.V1.NodeRun
import BatteryOS.V1.NodeSplitter
import BatteryOS.V1.NodeRefinement
import BatteryOS.V3.Locks
import BatteryOS.V3.Admin
import BatteryOS.V3.Requests
import BatteryOS.V3.Whole
import BatteryOS.V3.Server
import BatteryOS.V2.Graph
import BatteryOS.V2.Session
import BatteryOS.V3.SecureAggregation
import BatteryOS.V2.Server
