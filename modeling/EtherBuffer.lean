import EtherBuffer.Interface.Station
import EtherBuffer.Proofs.Egress.Accrual
import EtherBuffer.Proofs.Egress.Delivery
import EtherBuffer.Proofs.Egress.Gap
import EtherBuffer.Proofs.Egress.Polling
import EtherBuffer.Proofs.Egress.Rate
import EtherBuffer.Proofs.Egress.Reporting
import EtherBuffer.Proofs.Egress.Rotation
import EtherBuffer.Proofs.Egress.Sending
import EtherBuffer.Proofs.Egress.Timetable
import EtherBuffer.Proofs.Egress.Waiting
import EtherBuffer.Proofs.Filter.Agreement
import EtherBuffer.Proofs.Filter.Collision
import EtherBuffer.Proofs.Filter.Conservation
import EtherBuffer.Proofs.Filter.Displacement
import EtherBuffer.Proofs.Filter.Keys
import EtherBuffer.Proofs.Filter.Linearity
import EtherBuffer.Proofs.Filter.Refinement
import EtherBuffer.Proofs.Filter.Representation
import EtherBuffer.Proofs.Filter.Restoring
import EtherBuffer.Proofs.Filter.Separation
import EtherBuffer.Proofs.Filter.Undoing
import EtherBuffer.Proofs.Frame.Fields
import EtherBuffer.Proofs.Ingress.Delivery
import EtherBuffer.Proofs.Ingress.Draining
import EtherBuffer.Proofs.Ingress.Verdict
import EtherBuffer.Proofs.Interface.Exchange
import EtherBuffer.Proofs.Pool.Integrity
import EtherBuffer.Proofs.Pool.Layout
import EtherBuffer.Proofs.Pool.Room
import EtherBuffer.Proofs.Pool.Settling
import EtherBuffer.Proofs.Pool.Staleness
import EtherBuffer.Proofs.Pool.Tour
import EtherBuffer.Proofs.Pool.Vacancy
import EtherBuffer.Proofs.Queue.Fifo
import EtherBuffer.Proofs.Queue.Stamps
import EtherBuffer.Proofs.Record.Codec
import EtherBuffer.Proofs.Shared.Sharing
import EtherBuffer.Shared.Pool
import EtherBuffer.Shared.Queue
